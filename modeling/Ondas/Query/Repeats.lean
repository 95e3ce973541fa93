import Mathlib.Data.Nat.ModEq
import Ondas.Query.Normal
import Ondas.Query.Planner

/-!
# Repetitions of one source

A selection repeats one source when it has one bit history and every handle in its plan is made of
whole copies of it (`Plan.repeatsOneSource`). The state of the source at a tick is then enough: the
values come from one run of the computations on it, and every handle last changed when the source
did (`Plan.repeatedSourceSlots`). The alignment of the widths gives by induction on the plan that
each handle is so many copies of the source (`Computes.repeats`), and copies change exactly when
what they copy does.
-/

namespace Ondas.Query

open Library
open Vcd (Position)

/-! ## The shortcut -/

/-- A handle of a positive number of whole copies of `width` bits, on a boundary of such copies. -/
def aligned (width : Nat) (signal : Signal) : Bool :=
  decide (width ∣ signal.lsb) &&
    signal.width.any fun len => decide (0 < len) && decide (width ∣ len)

/-- A computation that keeps whole copies. -/
def Computation.aligned (width : Nat) : Computation → Bool
  | .concat _ inputs _ => inputs.all fun input => decide (0 < input.2) && decide (width ∣ input.2)
  | .slice _ _ signal => Query.aligned width signal

/-- `Selection::repeats_one_source`. -/
def Plan.repeatsOneSource (plan : Plan) : Bool :=
  match plan.bases with
  | [base] =>
    match base.width.filter (0 < ·) with
    | none => false
    | some width =>
      !plan.computations.isEmpty && plan.retained.all (aligned width) &&
        plan.computations.all (Computation.aligned width)
  | _ => false

/-- `Selection::repeated_source_slots`. -/
def Plan.repeatedSourceSlots (plan : Plan) (source : Option State) : List Slot :=
  let slots := plan.retained.map fun _ => Slot.empty
  match source, plan.bases with
  | some source, base :: _ =>
    let slots := modifyAll (fun slot => { slot with pending := some source.value }) slots
      (plan.entries base.index)
    let work := plan.computations.foldl Computation.complete (slots, [])
    work.1.map fun slot =>
      { slot with
        state := slot.pending.map fun value => ⟨value, source.changedAt⟩
        pending := none }
  | _, _ => slots

/-- Aligned handles are positive multiples, on a multiple. -/
theorem aligned_iff {width : Nat} {signal : Signal} : aligned width signal = true ↔
    width ∣ signal.lsb ∧ ∃ len, signal.width = some len ∧ 0 < len ∧ width ∣ len := by
  simp [aligned, Option.any_eq_true]

/-! ## Copies -/

/-- So many copies of the digits of a value. -/
def copies (n : Nat) : Value → Value
  | .bits digits => .bits (List.replicate n digits).flatten
  | value => value

/-- One copy of a value is the value. -/
theorem copies_one (v : Value) : copies 1 v = v := by
  cases v <;> simp [copies]

/-- The copies in the middle of more copies. -/
theorem slice_copies {digits : List UInt8} {n low len : Nat} (hlen : 0 < len)
    (hpos : 0 < digits.length) (hle : low + len ≤ n) :
    sliceDigits (List.replicate n digits).flatten
      (low * digits.length + len * digits.length - 1) (low * digits.length) =
        (List.replicate len digits).flatten := by
  obtain ⟨high, rfl⟩ : ∃ high, n = high + (len + low) := ⟨n - (len + low), by omega⟩
  have hsplit : (List.replicate (high + (len + low)) digits).flatten =
      (List.replicate high digits).flatten ++ ((List.replicate len digits).flatten ++
        (List.replicate low digits).flatten) := by
    rw [List.replicate_add, List.replicate_add, List.flatten_append, List.flatten_append]
  have hcount : ∀ m, (List.replicate m digits).flatten.length = m * digits.length := by simp
  have hpos' : 0 < len * digits.length := Nat.mul_pos hlen hpos
  unfold sliceDigits
  rw [hsplit, ← List.append_assoc]
  have htotal : ((List.replicate high digits).flatten ++ (List.replicate len digits).flatten ++
      (List.replicate low digits).flatten).length =
        high * digits.length + len * digits.length + low * digits.length := by
    rw [List.length_append, List.length_append, hcount, hcount, hcount]
  rw [htotal, List.take_left' (by rw [List.length_append, hcount, hcount]; omega),
    List.drop_left' (by rw [hcount]; omega)]

/-- Copies of two texts of one length are equal when the texts are. -/
theorem copies_injective {n : Nat} (hn : 0 < n) : Function.Injective (copies n) := by
  obtain ⟨m, rfl⟩ := Nat.exists_eq_add_of_lt hn
  intro v v' h
  cases v with
  | bits digits =>
    cases v' with
    | bits digits' =>
      simp only [copies, Value.bits.injEq] at h ⊢
      have hlength : digits.length = digits'.length := by
        have hcopies : (0 + m + 1) * digits.length = (0 + m + 1) * digits'.length := by
          simpa using congrArg List.length h
        exact Nat.eq_of_mul_eq_mul_left hn hcopies
      rw [Nat.zero_add, List.replicate_succ, List.replicate_succ, List.flatten_cons,
        List.flatten_cons] at h
      exact (List.append_inj h hlength).1
    | real | string | event => cases h
  | real | string | event =>
    cases v' with
    | bits digits => cases h
    | real | string | event => exact h

/-- Copies after copies. -/
theorem flatMap_copies {α : Type} (xs : List α) (count : α → Nat) (digits : List UInt8) :
    xs.flatMap (fun x => (List.replicate (count x) digits).flatten) =
      (List.replicate (xs.map count).sum digits).flatten := by
  induction xs with
  | nil => rfl
  | cons x xs ih =>
    rw [List.flatMap_cons, ih, List.map_cons, List.sum_cons, List.replicate_add,
      List.flatten_append]

/-- Multiples add up to as many copies as they have together. -/
theorem totalWidth_div {width : Nat} {parts : List Signal}
    (h : ∀ part ∈ parts, width ∣ part.width.getD 0) :
    totalWidth parts / width = (parts.map fun part => part.width.getD 0 / width).sum := by
  induction parts with
  | nil => exact Nat.zero_div width
  | cons part parts ih =>
    rw [totalWidth, List.map_cons, List.sum_cons, List.map_cons, List.sum_cons,
      Nat.add_div_of_dvd_right (h part (by simp)), ← totalWidth,
      ih fun part hpart => h part (List.mem_cons_of_mem _ hpart)]

/-! ## Every handle is so many copies -/

/-- Every bit record has the digits its base history declares. -/
def Sized (w : Waveform) (recs : List Record) : Prop :=
  ∀ r ∈ recs, ∀ digits, r.value = .bits digits →
    w.encodings[r.base]? = some (.bits digits.length)

/-- A known value of a history is a bit vector of this width. -/
def Wide (base width : Nat) (source : Nat → Option Value) : Prop :=
  ∀ v, source base = some v → ∃ digits, v = .bits digits ∧ digits.length = width

/-- A handle is so many copies of a history as it is times as wide. -/
def Repeats (w : Waveform) (base width : Nat) (signal : Signal) : Prop :=
  ∀ source, Wide base width source →
    w.value source signal = (source base).map (copies (signal.width.getD 0 / width))

section
variable {w : Waveform} {base width : Nat} {signal : Signal}

/-- A source handle inside its history on multiples of the width is the whole history. -/
theorem aligned_whole (hbase : w.encodings[base]? = some (.bits width)) (hvalid : w.Valid signal)
    (haligned : aligned width signal = true) (hc : signal.computed = false)
    (hindex : signal.index = base) : signal.isSlice = false ∧ signal.width = some width := by
  obtain ⟨hlsb, len, hwidth, hlen, hdvd⟩ := aligned_iff.1 haligned
  have hbits : signal.baseEncoding = .bits width := by
    have hencoding := hvalid.encoding hc
    rw [hindex, hbase, Option.some.injEq] at hencoding
    exact hencoding.symm
  obtain ⟨hencoding, hfits⟩ : signal.encoding = .bits len ∧ signal.lsb + len ≤ width := by
    have hin := (validateEncoding_ok hvalid).2.2.2
    unfold Signal.width at hwidth
    split at hwidth
    · next len' hencoding =>
      cases hwidth
      simp only [inBase, hbits, hencoding, Bool.and_eq_true, decide_eq_true_eq] at hin
      exact ⟨hencoding, hin.2⟩
    · cases hwidth
  have hle := Nat.le_of_dvd hlen hdvd
  have hzero : signal.lsb = 0 := by omega
  obtain rfl : len = width := by omega
  refine ⟨?_, hwidth⟩
  rcases signal with ⟨source, index, computed, baseEncoding, encoding, lsb⟩
  cases hbits
  cases hencoding
  cases hzero
  exact bne_self_eq_false _

/-- A whole source handle is one copy. -/
theorem repeats_source (hpos : 0 < width) (hbase : w.encodings[base]? = some (.bits width))
    (hvalid : w.Valid signal) (haligned : aligned width signal = true)
    (hc : signal.computed = false) (hindex : signal.index = base) :
    Repeats w base width signal := by
  obtain ⟨hwhole, hwidth⟩ := aligned_whole hbase hvalid haligned hc hindex
  intro source _
  rw [Waveform.value_source hc, hindex, hwidth, Option.getD_some, Nat.div_self hpos]
  congr 1
  funext v
  rw [Waveform.project_whole hwhole, copies_one]

/-- A slice of copies on multiples of the width is copies. -/
theorem repeats_slice (hpos : 0 < width) (hvalid : w.Valid signal)
    (haligned : aligned width signal = true) (hbase : aligned width signal.base = true)
    (hc : signal.computed = true) (hslice : signal.isSlice = true)
    (h : Repeats w base width signal.base) : Repeats w base width signal := by
  obtain ⟨⟨low, hlsb⟩, len, hwidth, hlen, m, rfl⟩ := aligned_iff.1 haligned
  obtain ⟨-, total, htotal, -, n, rfl⟩ := aligned_iff.1 hbase
  have hle : low + m ≤ n := by
    have hin := (validateEncoding_ok hvalid).2.2.2
    rcases inBase_cases hin with ⟨total, len, hbits, hencoding⟩ | ⟨hsame, hzero⟩
    · simp only [Signal.width, hencoding, Option.some.injEq] at hwidth
      simp only [Signal.width, Signal.base, hbits, Option.some.injEq] at htotal
      simp only [inBase, hbits, hencoding, Bool.and_eq_true, decide_eq_true_eq] at hin
      have hmul : width * (low + m) ≤ width * n := by rw [Nat.mul_add]; omega
      exact Nat.le_of_mul_le_mul_left hmul hpos
    · -- The whole of its base is not a slice.
      rcases signal with ⟨source, index, computed, baseEncoding, encoding, lsb⟩
      cases hsame
      cases hzero
      simp [Signal.isSlice, Signal.base] at hslice
  have hm : 0 < m := Nat.pos_of_mul_pos_left hlen
  intro source hwide
  rw [Waveform.value_slice hc (hvalid.index_lt hc), h source hwide, Option.map_map, hwidth, htotal,
    Option.getD_some, Option.getD_some, Nat.mul_div_cancel_left _ hpos,
    Nat.mul_div_cancel_left _ hpos]
  cases hv : source base with
  | none => rfl
  | some v =>
    obtain ⟨digits, rfl, hdigits⟩ := hwide v hv
    simp only [Option.map_some, Function.comp, copies, project, if_pos hslice, hwidth,
      Option.getD_some]
    subst hdigits
    rw [hlsb, Nat.mul_comm, Nat.mul_comm _ m, slice_copies hm hpos hle]

/-- A composition of copies is copies. -/
theorem repeats_concat (hwidths : ∀ d ∈ w.definitions, d.width = totalWidth d.parts)
    (hvalid : w.Valid signal) (haligned : aligned width signal = true) (hc : signal.computed = true)
    (hslice : signal.isSlice = false)
    (hparts : ∀ part ∈ w.compositionParts signal,
      aligned width part = true ∧ Repeats w base width part) : Repeats w base width signal := by
  obtain ⟨-, len, hwidth, hlen, -⟩ := aligned_iff.1 haligned
  have htotal := composition_width hwidths hvalid hc hslice
  have hdiv : totalWidth (w.compositionParts signal) / width =
      ((w.compositionParts signal).map fun part => part.width.getD 0 / width).sum := by
    refine totalWidth_div fun part hpart => ?_
    obtain ⟨-, len, hwidth, -, hdvd⟩ := aligned_iff.1 (hparts part hpart).1
    rwa [hwidth, Option.getD_some]
  have hsome : w.compositionParts signal ≠ [] := by
    intro hnil
    rw [htotal, hnil, Option.some.injEq] at hwidth
    exact absurd hwidth (Nat.ne_of_lt hlen)
  intro source hwide
  rw [Waveform.value_concat hc hslice (hvalid.index_lt hc), htotal, Option.getD_some, hdiv,
    List.map_congr_left fun part hpart => by rw [(hparts part hpart).2 source hwide]]
  cases hv : source base with
  | none =>
    unfold assemble
    rw [if_neg (by simp [observed])]
    rfl
  | some v =>
    obtain ⟨digits, rfl, -⟩ := hwide v hv
    obtain ⟨part, hpart⟩ := List.exists_mem_of_ne_nil _ hsome
    unfold assemble
    rw [if_pos (by simpa [observed, copies, Value.digits?] using ⟨part, hpart⟩), List.flatMap_map,
      Option.map_some, copies, ← flatMap_copies]
    rfl

/-- Every slot of aligned computations over one history is copies of it. -/
theorem Computes.repeats {slots : List Signal} {computations : List Computation} (hpos : 0 < width)
    (hwidths : ∀ d ∈ w.definitions, d.width = totalWidth d.parts)
    (hbase : w.encodings[base]? = some (.bits width)) (h : Computes w slots computations)
    (hslots : ∀ s ∈ slots, w.Valid s ∧ aligned width s = true ∧
      (s.computed = false → s.index = base)) : ∀ s ∈ slots, Repeats w base width s := by
  induction h with
  | nil => nofun
  | @source slots computations signal _ hc ih =>
    intro s hs
    rcases List.mem_append.1 hs with hs | hs
    · exact ih (fun s hs => hslots s (List.mem_append_left _ hs)) s hs
    · cases List.mem_singleton.1 hs
      obtain ⟨hvalid, haligned, hindex⟩ := hslots signal (by simp)
      exact repeats_source hpos hbase hvalid haligned hc (hindex hc)
  | @slice slots computations signal input _ hc hslice hinput ih =>
    have hbefore := ih fun s hs => hslots s (List.mem_append_left _ hs)
    intro s hs
    rcases List.mem_append.1 hs with hs | hs
    · exact hbefore s hs
    · cases List.mem_singleton.1 hs
      obtain ⟨hvalid, haligned, -⟩ := hslots signal (by simp)
      have hmem := List.mem_of_getElem? hinput
      exact repeats_slice hpos hvalid haligned
        (hslots _ (List.mem_append_left _ hmem)).2.1 hc hslice
        (hbefore _ hmem)
  | @concat slots computations signal inputs width' _ hc hslice hinputs ih =>
    have hbefore := ih fun s hs => hslots s (List.mem_append_left _ hs)
    intro s hs
    rcases List.mem_append.1 hs with hs | hs
    · exact hbefore s hs
    · cases List.mem_singleton.1 hs
      obtain ⟨hvalid, haligned, -⟩ := hslots signal (by simp)
      refine repeats_concat hwidths hvalid haligned hc hslice fun part hpart => ?_
      have hinput := List.mem_map_of_mem (f := some) hpart
      rw [← (inputs_of_forall₂ hinputs).2.1] at hinput
      obtain ⟨input, -, hinput⟩ := List.mem_map.1 hinput
      have hmem := List.mem_of_getElem? hinput
      exact ⟨(hslots _ (List.mem_append_left _ hmem)).2.1, hbefore _ hmem⟩

end

/-! ## The slots -/

section
variable {w : Waveform} {base width : Nat} {signal : Signal} {plan : Plan} {recs : List Record}
  {t : Nat}

/-- The values of a sized history are bit vectors of its width. -/
theorem Sized.wide (hsized : Sized w recs) (htyped : Typed w recs)
    (hbase : w.encodings[base]? = some (.bits width)) {pick : History Value → Option Value}
    (hpick : ∀ (hist : History Value) v, pick hist = some v → ∃ t, (t, v) ∈ hist) :
    Wide base width fun i => pick (history recs i) := by
  intro v hv
  obtain ⟨t, hmem⟩ := hpick _ v hv
  obtain ⟨r, hr, rfl, -, heq⟩ := mem_history hmem
  cases heq
  obtain ⟨e, he, hfits⟩ := htyped r hr
  rw [hbase, Option.some.injEq] at he
  subst he
  cases hvalue : r.value with
  | bits digits =>
    have hwidth := hsized r hr digits hvalue
    rw [hbase, Option.some.injEq, Encoding.bits.injEq] at hwidth
    exact ⟨digits.map toAsciiLowercase, rfl, by rw [List.length_map, hwidth]⟩
  | real | string | event =>
    rw [hvalue] at hfits
    cases hfits

/-- Copies have the state of what they copy, in copies. -/
theorem Repeats.committedAt (h : Repeats w base width signal) (hsized : Sized w recs)
    (htyped : Typed w recs) (hbase : w.encodings[base]? = some (.bits width))
    (hcount : 0 < signal.width.getD 0 / width) {source : Signal} (hc : source.computed = false)
    (hwhole : source.isSlice = false) (hindex : source.index = base) :
    w.committedAt recs signal t = (w.committedAt recs source t).map fun e =>
      (copies (signal.width.getD 0 / width) e.1, e.2) := by
  have hsource : ∀ history : Nat → Option Value, w.value history source = history base := by
    intro history
    rw [Waveform.value_source hc, hindex]
    simp [Waveform.project_whole hwhole]
  refine committed_map (copies_injective hcount) (fun τ => ?_) (fun τ => ?_) t
  · rw [Waveform.enteringAt, Waveform.enteringAt, hsource,
      h _ (hsized.wide htyped hbase fun _ _ => History.entering_mem)]
  · rw [Waveform.valueAt, Waveform.valueAt, hsource,
      h _ (hsized.wide htyped hbase fun _ _ => History.valueAt_mem)]

/-- What the shortcut has checked. -/
theorem Plan.repeatsOneSource_true {plan : Plan} (h : plan.repeatsOneSource = true) :
    ∃ source width, plan.bases = [source] ∧ source.width = some width ∧ 0 < width ∧
      ∀ s ∈ plan.retained, aligned width s = true := by
  unfold repeatsOneSource at h
  split at h
  · next source hbases =>
    split at h
    · cases h
    · next width hwidth =>
      obtain ⟨hwidth, hpos⟩ := Option.filter_eq_some_iff.1 hwidth
      simp only [Bool.and_eq_true, List.all_eq_true] at h
      exact ⟨source, width, hbases, hwidth, by simpa using hpos, h.1.2⟩
  · cases h

/-- One record of a history, as the shortcut runs it. -/
theorem Repeats.fullSlot (h : Repeats w base width signal) (hvalid : w.Valid signal)
    {digits : List UInt8}
    (hdigits : digits.length = width) (howned : (Value.bits digits).toOwned = .bits digits) :
    w.fullSlot [⟨base, 0, .bits digits⟩] 0 signal =
      { Slot.empty with
        pending := some (copies (signal.width.getD 0 / width) (.bits digits)) } := by
  have hhistory : history [⟨base, 0, .bits digits⟩] base = [(0, .bits digits)] := by
    simp [history, Value.isEvent, howned]
  have hwide : ∀ pick : History Value → Option Value,
      (∀ v, pick [(0, .bits digits)] = some v → v = .bits digits) →
      Wide base width fun i => pick (history [⟨base, 0, .bits digits⟩] i) := by
    intro pick hpick v hv
    dsimp only at hv
    rw [hhistory] at hv
    exact ⟨digits, hpick v hv, hdigits⟩
  have hentering : w.enteringAt [⟨base, 0, .bits digits⟩] signal 0 = none := by
    rw [Waveform.enteringAt, h _ (hwide (History.entering · 0) fun v hv => by cases hv), hhistory]
    rfl
  have hvalue : w.valueAt [⟨base, 0, .bits digits⟩] signal 0 =
      some (copies (signal.width.getD 0 / width) (.bits digits)) := by
    rw [Waveform.valueAt, h _ (hwide (History.valueAt · 0) fun v hv => (Option.some.inj hv).symm),
      hhistory]
    rfl
  have hpending : w.pendingAt [⟨base, 0, .bits digits⟩] 0 signal =
      some (copies (signal.width.getD 0 / width) (.bits digits)) := by
    cases hwritten : w.writtenAt [⟨base, 0, .bits digits⟩] signal 0 with
    | true => rw [Waveform.pendingAt, hwritten, if_pos rfl, hvalue]
    | false =>
      rw [Waveform.valueAt_quiet hvalid hwritten, hentering] at hvalue
      cases hvalue
  have hcount : countAt [⟨base, 0, .bits digits⟩] signal 0 = 0 := by
    unfold countAt eventsAt
    split
    · rfl
    · rw [List.filter_singleton]
      cases decide (base = signal.index ∧ 0 = 0) <;> rfl
  rw [Waveform.fullSlot, hpending, hcount, Waveform.enteredAt, entered, hentering]
  rfl

/-- Over one history every source handle is of that history. -/
theorem Plan.Fits.index_eq (hfits : plan.Fits w) {source : Signal} (hbases : plan.bases = [source])
    {s : Signal} (hs : s ∈ plan.retained) (hc : s.computed = false) : s.index = source.index := by
  obtain ⟨slot, hslot⟩ := List.getElem?_of_mem hs
  have hentry := (hfits.entries s.index slot).2 ⟨s, hslot, hc, rfl⟩
  have hsome : (plan.groups s.index).isSome = true := by
    unfold Plan.entries at hentry
    cases hgroup : plan.groups s.index with
    | none => rw [hgroup] at hentry; cases hentry
    | some => rfl
  simpa [hbases] using (hfits.bases s.index).1 hsome

/-- The one history of a plan that passes the check is a bit vector, every handle is a positive
number of copies of it, and every source handle is the whole of it. -/
theorem Plan.Fits.repeats (hfits : plan.Fits w)
    (hwidths : ∀ d ∈ w.definitions, d.width = totalWidth d.parts)
    (hrepeats : plan.repeatsOneSource = true) :
    ∃ source width, plan.bases = [source] ∧ source.computed = false ∧ source.isSlice = false ∧
      w.encodings[source.index]? = some (.bits width) ∧
      ∀ s ∈ plan.retained, Repeats w source.index width s ∧ 0 < s.width.getD 0 / width ∧
        (s.computed = false → s.isSlice = false) := by
  obtain ⟨source, width, hbases, hwidth, hpos, haligned⟩ := plan.repeatsOneSource_true hrepeats
  obtain ⟨o, ho, hc, hsource⟩ := hfits.sources source (by rw [hbases]; simp)
  have hbase : w.encodings[source.index]? = some (.bits width) := by
    rw [hsource] at hwidth ⊢
    show w.encodings[o.index]? = _
    rw [(hfits.valid o ho).encoding hc]
    unfold Signal.width at hwidth
    split at hwidth
    · next hencoding =>
      cases hwidth
      exact congrArg some hencoding
    · cases hwidth
  have hall := hfits.computes.repeats hpos hwidths hbase fun s hs =>
    ⟨hfits.valid s hs, haligned s hs, hfits.index_eq hbases hs⟩
  have hwhole : source.isSlice = false := by
    rw [hsource]
    exact Waveform.base_isSlice o
  refine ⟨source, width, hbases, by rw [hsource]; exact hc, hwhole, hbase,
    fun s hs => ⟨hall s hs, ?_, fun hsc => ?_⟩⟩
  · obtain ⟨-, len, hlen, hlpos, hdvd⟩ := aligned_iff.1 (haligned s hs)
    rw [hlen, Option.getD_some]
    exact Nat.div_pos (Nat.le_of_dvd hlpos hdvd) hpos
  · exact (aligned_whole hbase (hfits.valid s hs) (haligned s hs) hsc
      (hfits.index_eq hbases hs hsc)).1

/-- The slots of one known state of the history: so many copies of its value, changed with it. -/
theorem repeatedSourceSlots_some (hfits : plan.Fits w) {source : Signal}
    (hbases : plan.bases = [source]) (hbase : w.encodings[source.index]? = some (.bits width))
    (hall : ∀ s ∈ plan.retained, Repeats w source.index width s ∧
      (s.computed = false → s.isSlice = false)) {digits : List UInt8}
    (hdigits : digits.length = width) (howned : (Value.bits digits).toOwned = .bits digits)
    (changed : Option Nat) :
    plan.repeatedSourceSlots (some ⟨.bits digits, changed⟩) = plan.retained.map fun s =>
      { Slot.empty with
        state := some ⟨copies (s.width.getD 0 / width) (.bits digits), changed⟩ } := by
  have hfull : ∀ s ∈ plan.retained, w.fullSlot [⟨source.index, 0, .bits digits⟩] 0 s =
      { Slot.empty with pending := some (copies (s.width.getD 0 / width) (.bits digits)) } :=
    fun s hs => (hall s hs).1.fullSlot (hfits.valid s hs) hdigits howned
  have htyped : Typed w [⟨source.index, 0, .bits digits⟩] := by
    intro r hr
    rw [List.mem_singleton.1 hr]
    exact ⟨.bits width, hbase, trivial⟩
  -- Before the computations only the slots of the history are filled.
  have hopen : modifyAll (fun slot => { slot with pending := some (.bits digits) })
      (plan.retained.map fun _ => Slot.empty) (plan.entries source.index) =
        plan.retained.map (w.openSlot [⟨source.index, 0, .bits digits⟩] 0) := by
    refine List.ext_getElem? fun i => ?_
    rw [modifyAll_getElem? (hfits.entries_nodup _), List.getElem?_map, List.getElem?_map]
    cases hs : plan.retained[i]? with
    | none => rfl
    | some s =>
      have hmem := List.mem_of_getElem? hs
      rw [Option.map_some, Option.map_some, Option.map_some, Option.some.injEq]
      cases hc : s.computed with
      | true =>
        have hnot : i ∉ plan.entries source.index := by
          rw [hfits.entries]
          rintro ⟨s', hs', hc', -⟩
          rw [hs, Option.some.injEq] at hs'
          rw [← hs', hc] at hc'
          cases hc'
        rw [if_neg hnot]
        have hslot : { w.fullSlot [⟨source.index, 0, .bits digits⟩] 0 s with pending := none } =
          Slot.empty := by rw [hfull s hmem]; rfl
        rw [← hslot, Waveform.openSlot, hc]
        rfl
      | false =>
        have hentry : i ∈ plan.entries source.index :=
          (hfits.entries _ i).2 ⟨s, hs, hc, hfits.index_eq hbases hmem hc⟩
        have hcopies : copies (s.width.getD 0 / width) (.bits digits) = .bits digits := by
          have hvalue := (hall s hmem).1 (fun _ => some (.bits digits))
            fun v hv => ⟨digits, (Option.some.inj hv).symm, hdigits⟩
          rw [Waveform.value_source hc, Option.map_some, Option.map_some,
            Waveform.project_whole ((hall s hmem).2 hc)] at hvalue
          exact (Option.some.inj hvalue).symm
        have hslot := hfull s hmem
        rw [hcopies] at hslot
        rw [if_pos hentry, ← hslot]
        simp [Waveform.openSlot, Waveform.fullSlot, hc]
  obtain ⟨active, hrun, -⟩ := computations_fill (t := 0) htyped hfits.computes hfits.valid [] []
  rw [List.append_nil, List.append_nil, ← hopen] at hrun
  unfold Plan.repeatedSourceSlots
  simp only [hbases]
  rw [hrun, List.map_map]
  refine List.map_congr_left fun s hs => ?_
  rw [Function.comp, hfull s hs]
  rfl

/-- The shortcut's slots hold the states of the handles. -/
theorem repeatedSourceSlots_eq (hfits : plan.Fits w)
    (hwidths : ∀ d ∈ w.definitions, d.width = totalWidth d.parts)
    (hrepeats : plan.repeatsOneSource = true) (htyped : Typed w recs) (hsized : Sized w recs)
    {source : Signal} (hbases : plan.bases = [source]) (t : Nat) :
    plan.repeatedSourceSlots (stateOf (w.committedAt recs source t)) =
      plan.retained.map (w.heldSlot recs t) := by
  obtain ⟨source', width, hbases', hc, hwhole, hbase, hall⟩ := hfits.repeats hwidths hrepeats
  obtain rfl : source' = source := by simpa [hbases] using hbases'.symm
  have hcommitted : ∀ s ∈ plan.retained, w.committedAt recs s t =
      (w.committedAt recs source' t).map fun e => (copies (s.width.getD 0 / width) e.1, e.2) :=
    fun s hs => (hall s hs).1.committedAt hsized htyped hbase (hall s hs).2.1 hc hwhole rfl
  cases hstate : w.committedAt recs source' t with
  | none =>
    refine List.map_congr_left fun s hs => ?_
    rw [Waveform.heldSlot, hcommitted s hs, hstate]
    rfl
  | some entry =>
    obtain ⟨v, changed⟩ := entry
    have hvalue : (history recs source'.index).valueAt t = some v := by
      obtain ⟨u, hu, heq⟩ := Option.map_eq_some_iff.1 hstate
      cases heq
      rw [Waveform.valueAt, Waveform.value_source hc] at hu
      simpa [Waveform.project_whole hwhole] using hu
    obtain ⟨digits, rfl, hdigits⟩ :=
      hsized.wide htyped hbase (fun _ _ => History.valueAt_mem) v hvalue
    obtain ⟨howned, -⟩ := htyped.valueAt t _ _ hvalue
    refine (repeatedSourceSlots_some hfits hbases hbase
      (fun s hs => ⟨(hall s hs).1, (hall s hs).2.2⟩) hdigits howned changed).trans ?_
    refine List.map_congr_left fun s hs => ?_
    rw [Waveform.heldSlot, hcommitted s hs, hstate]
    rfl

end

/-- **The repeated-source shortcut is exact.** When a plan repeats one source, the slots built from
the state of the source at a tick hold for every handle the value, or its absence, and the last
change that the records give at the tick; and they are the slots with which a traversal of the whole
stream through the planned computations ends at the tick. -/
theorem repeats_exact {w : Waveform} {signals : List Signal} {plan : Plan} {recs : List Record}
    (hplan : Plan.new w signals = .ok plan)
    (hwidths : ∀ d ∈ w.definitions, d.width = totalWidth d.parts)
    (hrepeats : plan.repeatsOneSource = true) (htyped : Typed w recs) (hsized : Sized w recs) :
    ∃ source, plan.bases = [source] ∧ ∀ t,
      plan.repeatedSourceSlots (stateOf (w.committedAt recs source t)) =
        plan.retained.map (w.heldSlot recs t) ∧
      ∀ {σ B : Type} {sizes : Sizes} {src : Source} {sel : Selection}
        {stored : Position → List Record → Prop}, sel.Reached sizes src w signals →
        src.Tries w plan recs stored →
        ∀ (start : Option Nat) (visitor : TickVisitor σ B) (c : σ),
          (sel.readTicksFrom sizes src start t visitor c).2.2.2 = .ok .continue →
          (sel.readTicksFrom sizes src start t visitor c).2.1 =
            plan.repeatedSourceSlots (stateOf (w.committedAt recs source t)) := by
  have hplans := Plan.new_plans hplan
  obtain ⟨source, width, hbases, -⟩ := hplans.toFits.repeats hwidths hrepeats
  have hslots := repeatedSourceSlots_eq hplans.toFits hwidths hrepeats htyped hsized hbases
  refine ⟨source, hbases, fun t => ⟨hslots t, ?_⟩⟩
  intro σ B sizes src sel stored hreached htries start visitor c hends
  rw [hslots t]
  have hwaveform := hreached.waveform_eq
  have hsame : sel.plan = plan := by
    have hnew := hreached.fresh
    rw [Selection.new, hplan] at hnew
    exact (congrArg Selection.plan (Except.ok.inj hnew)).symm
  subst hwaveform hsame
  rcases hvisit : sweep visitor c (views sel.waveform sel.plan recs
    (published (upTo t recs) start)) with ⟨c', outcome⟩
  rcases readTicksFrom_read htries (hreached.sound htries) hvisit with
    ⟨sel', slots, hread, -, -, hheld, -⟩ | ⟨-, slots, c'', outcome', hread, hne, -⟩
  · rw [hread] at hends ⊢
    exact hheld hends
  · rw [hread] at hends
    exact absurd hends hne

/-- A bit twice, and the high bit of the pair, after it changed at tick 5. -/
theorem repeats_exact_pair :
    let bit : Signal := ⟨7, 0, false, .bits 1, .bits 1, 0⟩
    let pair : Signal := ⟨7, 0, true, .bits 2, .bits 2, 0⟩
    let high : Signal := ⟨7, 0, true, .bits 2, .bits 1, 1⟩
    let w : Waveform := ⟨7, [.bits 1], [⟨[bit, bit], 2⟩], some ⟨0, 5⟩, by
      intro i d hd part hpart
      match i with
      | 0 =>
        cases hd
        obtain rfl : part = bit := by simpa using hpart
        exact ⟨by decide, 1, rfl⟩
      | i + 1 => cases hd⟩
    let recs : List Record := [⟨0, 2, .bits (ascii "0")⟩, ⟨0, 5, .bits (ascii "1")⟩]
    ∃ plan, Plan.new w [pair, high] = .ok plan ∧ ∃ source, plan.bases = [source] ∧
      plan.repeatedSourceSlots (stateOf (w.committedAt recs source 5)) =
        plan.retained.map (w.heldSlot recs 5) := by
  intro bit pair high w recs
  have hok : (Plan.new w [pair, high]).toBool = true := by decide +kernel
  have htyped : Typed w recs := by
    intro r hr
    simp only [recs, List.mem_cons, List.not_mem_nil, or_false] at hr
    rcases hr with rfl | rfl <;> exact ⟨_, rfl, trivial⟩
  have hsized : Sized w recs := by
    intro r hr digits hdigits
    simp only [recs, List.mem_cons, List.not_mem_nil, or_false] at hr
    rcases hr with rfl | rfl <;> cases hdigits <;> rfl
  cases hplan : Plan.new w [pair, high] with
  | error e => rw [hplan] at hok; cases hok
  | ok plan =>
    have hrepeats : plan.repeatsOneSource = true := by
      have hcheck : ((Plan.new w [pair, high]).toOption.map Plan.repeatsOneSource) = some true := by
        decide +kernel
      rw [hplan] at hcheck
      exact Option.some.inj hcheck
    obtain ⟨source, hbases, hslots⟩ := repeats_exact hplan (by decide) hrepeats htyped hsized
    exact ⟨plan, rfl, source, hbases, (hslots 5).1⟩

end Ondas.Query
