import Ondas.Fst.Reader
import Ondas.Ghw.Reader
import Ondas.Query.Widths
import Ondas.Vcd.Source

/-!
# Every bit value has its width

The three readers decode a bit value in three ways. The VCD reader fits the digits it finds to the
declared width (`Vcd.Fitted`), the FST reader refuses any other number of digits, and the GHW reader
assembles a value in a buffer that was made with the width of its recipe. What they hand over is
sized (`Vcd.Reader.Opens.reads_fitted`, `Fst.Reader.hands`, `Ghw.Reader.Assembles.sized`), which is
what the slots of a query rely on (`Query.Selection.ReachedIn.sized`).
-/

namespace Ondas

open Library

/-! ## VCD -/

namespace Vcd

/-- What the digits at a width are for a payload: its low digits when it is longer, and else the
payload after zeros, or after its first digit again when that is no 0 and no 1. -/
structure Fitted (width : Nat) (payload digits : List UInt8) : Prop where
  length : digits.length = width
  low : width ≤ payload.length → digits <:+ payload
  extended : payload.length ≤ width → ∀ first ∈ payload.head?, ∃ fill,
    digits = List.replicate (width - payload.length) fill ++ payload ∧
      ((first = 48 ∨ first = 49) ∧ fill = 48 ∨
        first ≠ 48 ∧ first ≠ 49 ∧ fill = toAsciiLowercase first)

/-- The source fits digits so. -/
theorem fitWidth_fitted (width : Nat) (payload : List UInt8) :
    Fitted width payload (fitWidth width payload) := by
  refine ⟨?_, fun hle => ?_, fun hle first hfirst => ?_⟩
  · simp only [fitWidth, List.length_append, List.length_replicate, List.length_drop]
    omega
  · rw [fitWidth, Nat.sub_eq_zero_of_le hle, List.replicate_zero, List.nil_append]
    exact List.drop_suffix _ _
  · have hhead : payload.headD 0 = first := by
      rw [List.headD_eq_head?_getD, Option.mem_def.1 hfirst, Option.getD_some]
    refine ⟨_, by rw [fitWidth, Nat.sub_eq_zero_of_le hle, List.drop_zero], ?_⟩
    have hdigit : toAsciiLowercase first = 48 ∨ toAsciiLowercase first = 49 ↔
        first = 48 ∨ first = 49 := by
      unfold toAsciiLowercase
      split
      · next hletter =>
        simp only [Bool.and_eq_true, decide_eq_true_eq, UInt8.le_iff_toNat_le, UInt8.reduceToNat]
          at hletter
        have hsum : (first + 32).toNat = first.toNat + 32 := by
          rw [UInt8.toNat_add]
          simp only [UInt8.reduceToNat]
          omega
        simp only [← UInt8.toNat_inj, hsum, UInt8.reduceToNat]
        omega
      · rfl
    rw [hhead]
    by_cases hplain : first = 48 ∨ first = 49
    · exact .inl ⟨hplain, if_pos (by simpa using hdigit.2 hplain)⟩
    · obtain ⟨hzero, hone⟩ := not_or.1 hplain
      exact .inr ⟨hzero, hone, if_neg (by simpa using fun h => hplain (hdigit.1 h))⟩

/-- The value change that a record was read from stands at its position, and is one of its history
with a payload of logic states. -/
structure Changes (args : WalkArgs) (w : Walk) (record : Record) (payload : List UInt8) : Prop where
  read : ∃ tokens next letter id, w.tokens.Advances tokens ∧
    tokens.offset = record.position.offset ∧
    tokens.item record.position.block = .ok (some (.value letter payload id), next) ∧
      args.lookup id = some record.index
  nonempty : payload ≠ []
  logic : fromAscii payload = true

section
variable {args : WalkArgs} {S : List Nat} {w w' : Walk}

/-- A query walk keeps the encodings, and the bit values it delivers are fitted. -/
theorem act_bits (hsel : args.selected = some S) {offset : Nat} {i : Item} {recs : List Record}
    (h : Walk.act args offset w i = .next w' recs) : w'.encodings = w.encodings ∧
      ∀ record ∈ recs, ∀ width, w.encodings[record.index]? = some (.bits width) →
        ∃ letter payload id, i = .value letter payload id ∧ args.lookup id = some record.index ∧
          record.position = ⟨offset, w.time, w.block⟩ ∧ payload ≠ [] ∧ fromAscii payload = true ∧
            record.value = .bits (fitWidth width payload) := by
  obtain ⟨hencodings, hdecodes⟩ := Walk.act_decodes hsel h
  refine ⟨hencodings, fun record hrecord width hwidth => ?_⟩
  obtain ⟨letter, payload, id, rfl, hlookup, -, -, hposition, hv⟩ := hdecodes record hrecord
  rw [List.getD_eq_getElem?_getD, hwidth, Option.getD_some] at hv
  simp only [decodeValue] at hv
  split at hv
  · cases hv
  split at hv
  · cases hv
  next hpayload =>
  split at hv
  · simp only [Bool.or_eq_true, Bool.not_eq_true', not_or, Bool.not_eq_true, Bool.not_eq_false,
      List.isEmpty_eq_false_iff] at hpayload
    exact ⟨letter, payload, id, rfl, hlookup, hposition, hpayload.1, hpayload.2,
      (Option.some.inj (Except.ok.inj hv)).symm⟩
  · cases hv

/-- The bit values that a query walk delivers are fitted, by induction on its run. -/
theorem walk_bits (hsel : args.selected = some S) {out : List Emit} {result : Except Error Walk}
    (h : Runs (walkStep args) w out result) :
    ∀ record ∈ records out, ∀ width, w.encodings[record.index]? = some (.bits width) →
      ∃ payload digits, Changes args w record payload ∧ record.value = .bits digits ∧
        Fitted width payload digits := by
  induction h with
  | stop hstep =>
    rw [(walkStep_stop hstep).1]
    exact nofun
  | @next w w' emitted out r hstep _ ih =>
    obtain ⟨i, tokens, last, hitem, hact⟩ := walkStep_next hstep
    obtain ⟨hencodings, hrecords⟩ := act_bits hsel hact
    intro record hrecord width hwidth
    rw [records_append] at hrecord
    rcases List.mem_append.1 hrecord with hrecord | hrecord
    · obtain ⟨letter, payload, id, rfl, hlookup, hposition, hne, hlogic, hvalue⟩ :=
        hrecords record hrecord width hwidth
      refine ⟨payload, _, ⟨⟨w.tokens, tokens, letter, id, .refl _, ?_, ?_, hlookup⟩, hne, hlogic⟩,
        hvalue, fitWidth_fitted width payload⟩
      · rw [hposition]
      · rw [hposition]
        exact hitem
    · obtain ⟨payload, digits, hchanges, hvalue, hfitted⟩ :=
        ih record hrecord width (hencodings ▸ hwidth)
      obtain ⟨from', next, letter, id, hadvances, hoffset, hread, hlookup⟩ := hchanges.read
      refine ⟨payload, digits, ⟨⟨from', next, letter, id, ?_, hoffset, hread, hlookup⟩,
        hchanges.nonempty,
        hchanges.logic⟩, hvalue, hfitted⟩
      rw [(Walk.act_next hact).tokens] at hadvances
      exact (Tokens.item_advances hitem).1.trans hadvances
end

/-- **Bit values of a serial read.** It hands some records to any visitor until it breaks, and ends
in one way; each record of a history of bits is a value change of the file, and its value has the
digits of that change fitted to the declared width. -/
theorem Reader.reads_fitted (r : Reader) (faults : Faults) (signals : List Signal) (stop : Nat)
    (position : Option Position) : ∃ recs result,
      (∀ {σ B : Type} (visitor : σ → Record → σ × ControlFlow B) (c : σ),
        r.serialRead faults signals stop position visitor c =
          r.ended (visit visitor c recs) result) ∧
      ∀ record ∈ recs, ∀ width, r.encodings[record.index]? = some (.bits width) →
        ∃ payload digits, Changes (r.queryArgs signals stop)
          (r.walk (tokensFrom r.bytes faults (position.getD r.bodyStart).offset) false
            (some (position.getD r.bodyStart))) record payload ∧
          record.value = .bits digits ∧ Fitted width payload digits := by
  cases hseek : faults.seek with
  | some message =>
    refine ⟨[], .error (.io message), fun visitor c => ?_, fun record hrecord => by cases hrecord⟩
    unfold Reader.serialRead
    simp only [hseek]
    rfl
  | none =>
    obtain ⟨recs, result, hdelivers⟩ :=
      r.delivers_total faults signals stop (position.getD r.bodyStart)
    refine ⟨recs, result, fun visitor c => Reader.serialRead_eq hseek hdelivers visitor c, ?_⟩
    obtain ⟨out, rfl, hrun⟩ := hdelivers
    exact walk_bits rfl hrun

/-- A record of a read from a position has, when its history is one of bits, the digits of a value
change of the file fitted to the declared width. A serial read meets the change where its own reads
do not fail, and a parallel one hands over a copy with its letters in lower case. -/
def Reader.FitsFrom (r : Reader) (faults : Faults) (signals : List Signal) (stop : Nat)
    (start : Position) (record : Record) : Prop :=
  ∀ width, r.encodings[record.index]? = some (.bits width) → ∃ input payload digits,
    (input = faults ∧ record.value = .bits digits ∨
      input = .none ∧ record.value = (Value.bits digits).toOwned) ∧
    Changes (r.queryArgs signals stop)
      (r.walk (tokensFrom r.bytes input start.offset) false (some start)) record payload ∧
    Fitted width payload digits

/-- What is left of a read: the answer of its visitor, how it ended, and the position it keeps. -/
def returned {σ B : Type} (result : Reader × σ × Except Error (ControlFlow B)) :
    σ × Except Error (ControlFlow B) × Option Position :=
  (result.2.1, result.2.2, result.1.position)

/-- A serial read answers its visitor as a source does. -/
theorem returned_ended {σ B : Type} (r : Reader) (visited : σ × ControlFlow B)
    (result : Except Error Walk) : returned (r.ended visited result) =
      Query.answered (result.map Walk.position) visited := by
  rcases visited with ⟨c, _ | b⟩ <;> cases result <;> rfl

/-- A parallel read answers its visitor as a source does. -/
theorem returned_leaves {σ B : Type} (r : Reader) (position : Position)
    (visited : σ × ControlFlow B) : returned (r.leaves position visited) =
      Query.answered (.ok (some position)) visited := by
  rcases visited with ⟨c, _ | b⟩ <;> rfl

section
variable {r opened : Reader} {o : Opened} {signals : List Signal} {σ B : Type}
  {visitor : σ → Record → σ × ControlFlow B} {c : σ}

/-- The records that remain after a position are fitted, and so are their owned copies. -/
theorem Reader.Remains.fitted {p : Position} {recs : List Record} (h : r.Remains signals p recs)
    (faults : Faults) (stop : Nat) :
    ∀ record ∈ recs, r.FitsFrom faults signals stop p record.owned := by
  obtain ⟨w, out, rfl, hrun⟩ := h
  intro record hrecord width hwidth
  obtain ⟨payload, digits, hchanges, hvalue, hfitted⟩ :=
    walk_bits rfl hrun record hrecord width hwidth
  exact ⟨.none, payload, digits, .inr ⟨rfl, congrArg Value.toOwned hvalue⟩,
    ⟨hchanges.read, hchanges.nonempty, hchanges.logic⟩, hfitted⟩

/-- A read hands its visitor some fitted records, until it breaks, and answers as a source does. -/
def Reader.HandsFitted (r : Reader) (faults : Faults) (signals : List Signal) (stop : Nat)
    (position : Option Position) (visitor : σ → Record → σ × ControlFlow B) (c : σ)
    (result : Reader × σ × Except Error (ControlFlow B)) : Prop :=
  ∃ recs ending, returned result = Query.answered ending (visit visitor c recs) ∧
    ∀ record ∈ recs, r.FitsFrom faults signals stop (position.getD r.bodyStart) record

/-- A serial read hands over fitted records. -/
theorem Reader.serialRead_fitted (r : Reader) (faults : Faults) (signals : List Signal) (stop : Nat)
    (position : Option Position) (visitor : σ → Record → σ × ControlFlow B) (c : σ) :
    r.HandsFitted faults signals stop position visitor c
      (r.serialRead faults signals stop position visitor c) := by
  obtain ⟨recs, result, hserial, hfitted⟩ := r.reads_fitted faults signals stop position
  refine ⟨recs, result.map Walk.position, ?_, fun record hrecord width hwidth => ?_⟩
  · rw [hserial visitor c, returned_ended]
  · obtain ⟨payload, digits, hchanges, hvalue, hfit⟩ := hfitted record hrecord width hwidth
    exact ⟨faults, payload, digits, .inl ⟨rfl, hvalue⟩, hchanges, hfit⟩

/-- What joined threads return was handed fitted records: those of the body, or a front of them
before the reads of a worker failed. -/
theorem Reader.chunked_fitted {cuts : List Nat} (hhead : cuts.head? = some r.body)
    (hcut : Cutting r.bytes cuts) (hopen : r.parallelOpenWithCuts cuts = some o) {env : FullEnv}
    {stop : Nat} (faults : Faults) {result : Reader × σ × Except Error (ControlFlow B)} :
    let opened := r.chunked o ⟨cuts, (o.span.map TimeSpan.last).getD 0⟩
    opened.FullEnds env signals stop visitor c (some result) →
      opened.HandsFitted faults signals stop none visitor c result := by
  intro opened hfull
  unfold Reader.FullEnds at hfull
  split at hfull
  · cases hfull
  next batchLen started hstart =>
  obtain ⟨s, hsteps, hjoined, hended⟩ := hfull
  obtain ⟨parts, -, hremains, -⟩ := chunked_remains hhead hcut hopen signals
  have howned : ∀ front, front <+: parts.flatten → ∀ record ∈ front.map Record.owned,
      opened.FitsFrom faults signals stop opened.bodyStart record := by
    intro front hfront record hrecord
    obtain ⟨record, hmem, rfl⟩ := List.mem_map.1 hrecord
    exact hremains.fitted faults stop record (hfront.subset hmem)
  rcases joined_ended hhead hcut hopen hstart hsteps hjoined hremains with
    hall | ⟨front, i, limit, message, c', hfront, -, hvisit, hall⟩
  · obtain rfl := Option.some.inj (hended.trans hall)
    refine ⟨_, .ok (some ⟨r.bytes.length, (o.span.map TimeSpan.last).getD 0, false⟩), ?_,
      howned _ List.prefix_rfl⟩
    rw [visit_map]
    exact returned_leaves _ _ _
  · obtain rfl := Option.some.inj (hended.trans hall)
    refine ⟨_, .error (.io message), ?_, howned front hfront⟩
    rw [visit_map, show visit (fun c (rec : Record) => visitor c rec.owned) c front = _ from hvisit]
    rfl

/-- A read of an opened body hands over fitted records, whatever parallel threads make of it and
whatever reads of the file fail. -/
theorem Reader.Opens.reads_fitted (h : r.Opens o opened) (faults : Faults) (env : FullEnv)
    (stop : Nat) (position : Option Position)
    {full : Option (Reader × σ × Except Error (ControlFlow B))}
    (hfull : opened.FullEnds env signals stop visitor c full) :
    opened.HandsFitted faults signals stop position visitor c
      (opened.readFrom faults (fun _ => full) signals stop position visitor c) := by
  have hserial := opened.serialRead_fitted faults signals stop position visitor c
  cases position with
  | some p => exact hserial
  | none =>
    cases hparallel : opened.parallel.bind fun _ => full with
    | none => simpa only [Reader.readFrom, hparallel] using hserial
    | some result =>
      simp only [Reader.readFrom, hparallel]
      obtain ⟨source, hsource, rfl⟩ := Option.bind_eq_some_iff.1 hparallel
      cases h with
      | serial _ hnone => cases hnone.symm.trans hsource
      | chunks hhead hcut hopen => exact Reader.chunked_fitted hhead hcut hopen faults hfull

end

/-- **Bit values of a VCD read.** Whatever parallel threads make of a read of an opened body, and
whatever reads of the file fail, the visitor is handed some records, until it breaks; the digits of
each bit value are those of a value change of the file, fitted to the declared width. -/
theorem readFrom_fitted {r opened : Reader} {o : Opened} (h : r.Opens o opened) (faults : Faults)
    (env : FullEnv) (signals : List Signal) (stop : Nat) (position : Option Position) {σ B : Type}
    (visitor : σ → Record → σ × ControlFlow B)
    (c : σ) {full : Option (Reader × σ × Except Error (ControlFlow B))}
    (hfull : opened.FullEnds env signals stop visitor c full) : ∃ recs,
      (opened.readFrom faults (fun _ => full) signals stop position visitor c).2.1 =
        (visit visitor c recs).1 ∧
      ∀ record ∈ recs, opened.FitsFrom faults signals stop
        (position.getD opened.bodyStart) record := by
  obtain ⟨recs, ending, hreturned, hfitted⟩ := h.reads_fitted faults env stop position hfull
  exact ⟨recs, (congrArg Prod.fst hreturned).trans (Query.answered_fst ending _), hfitted⟩

/-- A payload that is too short, with a known and with an unknown first digit. -/
theorem readFrom_fitted_short :
    let h : Header := ⟨0, [(ascii "!", 0)], [], [.bits 3]⟩
    let bus : Signal := ⟨0, 0, false, .bits 3, .bits 3, 0⟩
    let opened := (h.reader (fun _ => none) (ascii "#1\nb10 !\n#2\nbx1 !\n")).opened
      ⟨some ⟨1, 2⟩, [], [.bits 3]⟩
    let collect (seen : List Record) (rec : Record) : List Record × ControlFlow Unit :=
      (seen ++ [rec], .continue)
    ∃ recs, (opened.readFrom .none (fun _ => none) [bus] 9 none collect []).2.1 = recs ∧
      recs.map Record.value = [.bits (ascii "010"), .bits (ascii "xx1")] ∧
      ∀ record ∈ recs, opened.FitsFrom .none [bus] 9 opened.bodyStart record := by
  intro h bus opened collect
  have hopens : (h.reader (fun _ => none) (ascii "#1\nb10 !\n#2\nbx1 !\n")).Opens
      ⟨some ⟨1, 2⟩, [], [.bits 3]⟩ opened := .serial (by decide +kernel) rfl
  obtain ⟨recs, hread, hfits⟩ := readFrom_fitted hopens .none ⟨1, false, fun _ => none⟩ [bus] 9 none
    collect [] rfl
  rw [visit_push] at hread
  have hvalues : ((opened.readFrom .none (fun _ => none) [bus] 9 none collect []).2.1).map
      Record.value = [.bits (ascii "010"), .bits (ascii "xx1")] := by decide +kernel
  rw [hread] at hvalues
  exact ⟨recs, hread, hvalues, hfits⟩

end Vcd

/-! ## FST -/

namespace Fst

/-- The records of the calls of a callback up to an end, and the failure that stops it. -/
def Reader.records (r : Reader) (stop : Nat) : List Callback → List Query.Record × Option Error
  | [] => ([], none)
  | call :: calls =>
    if stop < call.time then r.records stop calls
    else
      match r.indices call.handle with
      | none => ([], some (malformed "unknown value handle"))
      | some index =>
        match decode (r.encodings.getD index .unsupported) call.time call.raw with
        | .error e => ([], some e)
        | .ok value =>
          let rest := r.records stop calls
          (⟨index, call.time, value⟩ :: rest.1, rest.2)

/-- A read hands some records to any visitor until it breaks, and ends in one way. -/
def Reader.Hands (r : Reader) (signals : List Signal) (start stop : Nat) (recs : List Query.Record)
    (ending : Except Error Unit) : Prop :=
  ∀ {σ B : Type} (visitor : σ → Nat → Nat → Value → σ × ControlFlow B) (c : σ),
    r.read signals start stop visitor c =
      match visit (fun c (rec : Query.Record) => visitor c rec.base rec.time rec.value) c recs with
      | (c, .break b) => (c, .ok (.break b))
      | (c, .continue) => (c, ending.map fun _ => .continue)

section
variable {r : Reader} {stop : Nat}

/-- A visit of the calls is one of their records, up to a failure. -/
theorem visit_callback {σ B : Type} (visitor : σ → Nat → Nat → Value → σ × ControlFlow B) (c : σ)
    (calls : List Callback) : visit (r.callback stop visitor) c calls =
      match visit (fun c (rec : Query.Record) => visitor c rec.base rec.time rec.value) c
        (r.records stop calls).1, (r.records stop calls).2 with
      | (c, .break b), _ => (c, .break (.break b))
      | (c, .continue), some e => (c, .break (.error e))
      | (c, .continue), none => (c, .continue) := by
  induction calls generalizing c with
  | nil => rfl
  | cons call calls ih =>
    by_cases hstop : stop < call.time
    · simp only [visit, Reader.callback, Reader.records, if_pos hstop]
      exact ih c
    cases hindex : r.indices call.handle with
    | none => simp only [visit, Reader.callback, Reader.records, if_neg hstop, hindex]
    | some index =>
      cases hvalue : decode (r.encodings.getD index .unsupported) call.time call.raw with
      | error e => simp only [visit, Reader.callback, Reader.records, if_neg hstop, hindex, hvalue]
      | ok value =>
        simp only [visit, Reader.callback, Reader.records, if_neg hstop, hindex, hvalue]
        rcases visitor c index call.time value with ⟨c', _ | b⟩
        · exact ih c'
        · rfl

/-- A bit value that decodes has the digits of its width. -/
theorem decode_sized {encoding : Encoding} {time : Nat} {raw : SignalValue} {value : Value}
    (h : decode encoding time raw = .ok value) : Query.SizedTo encoding value := by
  rintro width rfl
  cases raw with
  | real raw => cases h
  | string bytes =>
    simp only [decode] at h
    split at h
    · next hcheck =>
      cases h
      exact ⟨bytes, rfl, beq_iff_eq.1 (Bool.and_eq_true_iff.1 hcheck).2⟩
    · cases h

/-- The records of an FST file are sized. -/
theorem records_sized (r : Reader) (stop : Nat) (calls : List Callback) :
    ∀ rec ∈ (r.records stop calls).1, Query.SizedAt r.encodings rec.base rec.value := by
  induction calls with
  | nil => exact nofun
  | cons call calls ih =>
    rw [Reader.records]
    split
    · exact ih
    split
    · exact nofun
    next index _ =>
    split
    · exact nofun
    next value hvalue =>
    intro rec hrec
    rcases List.mem_cons.1 hrec with rfl | hrec
    · intro encoding hencoding
      dsimp only at hencoding
      rw [List.getD_eq_getElem?_getD, hencoding, Option.getD_some] at hvalue
      exact decode_sized hvalue
    · exact ih rec hrec

/-- **Values of an FST read.** A read hands over records that are sized. -/
theorem Reader.hands (r : Reader) (signals : List Signal) (start stop : Nat) : ∃ recs ending,
    r.Hands signals start stop recs ending ∧
      ∀ rec ∈ recs, Query.SizedAt r.encodings rec.base rec.value := by
  generalize hcalls : r.readSignals ⟨start, stop,
    signals.map fun signal => r.handles.getD signal.index 0⟩ = calls
  refine ⟨(r.records stop calls.1).1, match (r.records stop calls.1).2, calls.2 with
    | some e, _ => .error e
    | none, .error e => .error (readerError e)
    | none, .ok () => .ok (), fun visitor c => ?_, records_sized r stop calls.1⟩
  rw [Reader.read, hcalls, visit_callback]
  rcases visit (fun c (rec : Query.Record) => visitor c rec.base rec.time rec.value) c
    (r.records stop calls.1).1 with ⟨c', _ | b⟩
  · rcases (r.records stop calls.1).2 with _ | e
    · rcases calls.2 with e | _ <;> rfl
    · rfl
  · rfl

end

end Fst

/-! ## GHW -/

namespace Ghw

open Ondas.Ghw.Types

section
variable {t : Types} {active : Active} {slots : List Recipe}

/-- A recipe of bits is at least one bit wide. -/
def Recipe.Wide (recipe : Recipe) : Prop := ∀ width, recipe.encoding = .bits width → 0 < width

/-- The value of a buffer of bits has the digits of its recipe. -/
theorem Buffer.Of.sized {recipe : Recipe} {b : Buffer} (h : b.Of t recipe) (hwide : recipe.Wide) :
    Query.SizedTo recipe.encoding b.value := by
  intro width hwidth
  have hlength := h.digits
  rw [hwidth, Buffer.widthOf, Option.some.injEq] at hlength
  have hpos := hwide width hwidth
  refine ⟨b.digits, ?_, hlength.symm⟩
  rw [Buffer.value, if_neg]
  rw [List.isEmpty_iff]
  rintro hnil
  rw [hnil] at hlength
  exact absurd hlength hpos.ne'

/-- The recipes of a section are wide: a marked scalar is one bit, another one at least one, and a
vector has the bits of its source IDs. -/
theorem Shared.wide {d : Declarations} {leaves : List Leaf} (h : Shared t d leaves)
    (hsuit : AllSuit t active d.recipes) : ∀ recipe ∈ d.recipes, recipe.Wide := by
  intro recipe hmem width hwidth
  obtain ⟨storage, literals, wkt, hsuits⟩ := hsuit recipe hmem
  rcases hsuits.kind with ⟨-, -, hencoding⟩ | ⟨-, -, hencoding⟩
  · rw [hencoding] at hwidth
    split at hwidth
    · cases hwidth
    next hne =>
      cases hwidth
      unfold Mapper.width
      cases storage <;> dsimp only
      case b2 | e8 =>
        split
        · exact Nat.one_pos
        · exact Nat.lt_of_lt_of_le Nat.one_pos (Nat.le_max_left _ _)
      case f64 => exact absurd rfl hne
      all_goals decide
  · rw [hencoding, Encoding.bits.injEq] at hwidth
    subst hwidth
    obtain ⟨s, hs⟩ := List.getElem?_of_mem hmem
    obtain ⟨i, leaf, v, hleaf, hasked, hv, hsome, -⟩ := h.first s recipe hs
    have hids : recipe.ids = leaf.ids := by
      obtain ⟨recipe', own, hrecipe', hown, hids, halike⟩ := h.key i leaf v s hleaf hv hsome
      cases hs.symm.trans hrecipe'
      exact halike.ids.trans hids
    refine List.length_pos_iff.2 fun hnil => ?_
    rw [(h.without i leaf v hleaf hv).2 (hids ▸ hnil)] at hsome
    cases hsome

end

namespace Assembly

section
variable {t : Types} {active : Active} {recipes slots : List Recipe} {signals : List Signal}
  {a a' : Assembly}

/-- What the consumer hands over is the value of a buffer. -/
theorem consume_value {event : Event} {notifications : List Notification}
    (h : a.consume event = some (notifications, a')) {index time : Nat} {v : Value}
    (hmem : .value index time v ∈ notifications) :
    ∃ (slot : Nat) (b : Buffer), a.buffers[slot]? = some b ∧ index = b.index ∧ v = b.value := by
  cases event with
  | tick time' =>
    cases h
    cases List.mem_singleton.1 hmem
  | scalar e =>
    obtain ⟨b, -, heq⟩ := Option.map_eq_some_iff.1 h
    cases heq
    cases hmem
  | listEnd time' =>
    cases h
    obtain ⟨slot, -, hslot⟩ := List.mem_filterMap.1 hmem
    obtain ⟨b, hb, hsome⟩ := Option.bind_eq_some_iff.1 hslot
    split at hsome
    · cases hsome
      exact ⟨slot, b, hb, rfl, rfl⟩
    · cases hsome

/-- **Values of a GHW read.** The consumer hands over values that are sized, by induction on the
events that are delivered. -/
theorem run_sized (hslots : AllSuit t active slots) (hactive : active.Pairwise fun x y => x.1 < y.1)
    (hwide : ∀ recipe ∈ slots, recipe.Wide)
    (hselected : List.Forall₂ (fun signal recipe => recipes[signal.index]? = some recipe)
      signals slots)
    (events : List Event) : ∀ (a c : Assembly) (notifications : List Notification),
    Fitted t active slots a → a.buffers.map Buffer.index = signals.map Signal.index →
    EventsDelivered t active (sourceIdsOf a.dependencies) events →
    a.run events = some (notifications, c) → ∀ index time v, .value index time v ∈ notifications →
      Query.SizedAt (recipes.map Recipe.encoding) index v := by
  induction events with
  | nil =>
    intro a c notifications _ _ _ hrun
    cases hrun
    exact nofun
  | cons event events ih =>
    intro a c notifications h hindices hevents hrun index time v hmem
    have hevent : ∀ e, event = .scalar e → Delivers t active (sourceIdsOf a.dependencies) e :=
      fun e heq => hevents e (heq ▸ .head _)
    obtain ⟨now, b, hb, hfitted, hkeys⟩ := consume_total h hslots hactive hevent
    rw [run, hb] at hrun
    change ((b.run events).bind fun r => some (now ++ r.1, r.2)) = some (notifications, c) at hrun
    obtain ⟨⟨more, c'⟩, hrest, heq⟩ := Option.bind_eq_some_iff.1 hrun
    cases heq
    rcases List.mem_append.1 hmem with hmem | hmem
    · obtain ⟨slot, buffer, hbuffer, rfl, rfl⟩ := consume_value hb hmem
      have hindex : (signals.map Signal.index)[slot]? = some buffer.index := by
        rw [← hindices, List.getElem?_map, hbuffer]
        rfl
      rw [List.getElem?_map] at hindex
      obtain ⟨signal, hsignal, hsame⟩ := Option.map_eq_some_iff.1 hindex
      obtain ⟨recipe, hrecipe, hlisted⟩ := forall₂_getElem? hselected hsignal
      obtain ⟨buffer', hbuffer', hof⟩ := exists_buffer h.buffers hrecipe
      cases hbuffer.symm.trans hbuffer'
      intro encoding hencoding
      rw [List.getElem?_map, ← hsame, hlisted, Option.map_some, Option.some.injEq] at hencoding
      exact hencoding ▸ hof.sized (hwide recipe (List.mem_of_getElem? hrecipe))
    · refine ih b c' more hfitted ((consume_indices hb).trans hindices)
        (sourceIdsOf_congr hkeys ▸ fun e he => hevents e (.tail _ he)) hrest index time v hmem

end

/-- The histories of a section are encoded as its recipes are. -/
theorem read_encodings {t : Types} {d : Declarations} {w w' : Wire}
    (h : Declarations.read t w = (.ok d, w')) : d.encodings = d.recipes.map Recipe.encoding := by
  obtain ⟨s, w₁, -, h₁⟩ := Decoder.bind_eq_ok.1 h
  obtain ⟨fuel, w₂, -, h₂⟩ := Decoder.bind_eq_ok.1 h₁
  obtain ⟨last, w₃, -, h₃⟩ := Decoder.bind_eq_ok.1 h₂
  obtain ⟨_, w₄, -, hpure⟩ := Decoder.bind_eq_ok.1 h₃
  cases hpure
  rfl

/-- The recipes of an accepted section are wide. -/
theorem read_wide {strings : List String} {t : Types} {w₀ w₁ : Wire}
    (hparse : Types.parse strings w₀ = (.ok t, w₁)) {d : Declarations} {w w' : Wire}
    (hread : Declarations.read t w = (.ok d, w')) : ∀ recipe ∈ d.recipes, recipe.Wide := by
  have ht := Types.parse_wellFormed strings _ _ _ hparse
  have hmarked := Types.parse_marked strings _ _ _ hparse
  obtain ⟨leaves, m, hleaves, hm, hvars, hrecipes, hactive⟩ := read_mapped ht hread
  have hshared := hm.shared hvars hrecipes
  exact hshared.wide (hshared.askedBy.suits ht hmarked hm hactive)

/-- What the consumer of a prepared read hands over is sized. -/
theorem Prepared.sized {strings : List String} {t : Types} {w₀ w₁ : Wire}
    (hparse : Types.parse strings w₀ = (.ok t, w₁)) {d : Declarations} {w w' : Wire}
    (hread : Declarations.read t w = (.ok d, w')) {signals : List Signal} {slots : List Recipe}
    {a c : Assembly} (h : Prepared t d signals slots a)
    (hindices : a.buffers.map Buffer.index = signals.map Signal.index) {events : List Event}
    (hevents : EventsDelivered t d.active (sourceIdsOf a.dependencies) events)
    {notifications : List Notification} (hrun : a.run events = some (notifications, c)) :
    ∀ index time v, .value index time v ∈ notifications → Query.SizedAt d.encodings index v := by
  rw [read_encodings hread]
  exact run_sized h.suit h.sorted
    (fun recipe hmem => read_wide hparse hread recipe (slots_mem h.recipes recipe hmem)) h.recipes
    events a c notifications h.fitted hindices hevents hrun

/-- What a read hands over of any part of what is delivered to it is sized. -/
def Sizes (d : Declarations) (a : Assembly) (events : List Event) : Prop :=
  ∃ notifications c, a.run events = some (notifications, c) ∧
    ∀ index time v, .value index time v ∈ notifications → Query.SizedAt d.encodings index v

/-- **Values of a GHW read.** Any signals of an accepted section can be selected, and what the
consumer makes of any part of a walk, or of any other events with a value of the active type for
each scalar, is sized. -/
theorem assembly_sized {strings : List String} {t : Types} {w₀ w₁ : Wire}
    (hparse : Types.parse strings w₀ = (.ok t, w₁)) {d : Declarations} {w w' : Wire}
    (hread : Declarations.read t w = (.ok d, w')) {sort : List Dependency → List Dependency}
    (hsort : Sorts sort) {signals : List Signal}
    (hsignals : ∀ signal ∈ signals, signal.index < d.recipes.length) (indexed : Bool) (w₂ : Wire) :
    ∃ a, prepare t d.recipes d.active indexed sort signals w₂ = (.ok a, w₂) ∧
      (∀ stop bulk walk emissions result,
        Runs (walkStep ⟨t, d.active, stop⟩ bulk) walk emissions result →
        ∀ events rest, emissions.map Emission.event = events ++ rest → Sizes d a events) ∧
      ∀ events, EventsDelivered t d.active (sourceIdsOf a.dependencies) events →
      Sizes d a events := by
  obtain ⟨a, slots, hprepare, h⟩ := read_prepared hparse hread hsort hsignals indexed w₂
  have hall : ∀ events, EventsDelivered t d.active (sourceIdsOf a.dependencies) events →
      Sizes d a events := by
    intro events hevents
    obtain ⟨notifications, c, hrun, -, -⟩ :=
      run_counted h.suit h.sorted events a [] h.fitted h.fresh.counted hevents
    exact ⟨notifications, c, hrun,
      h.sized hparse hread (prepare_indices hprepare) hevents hrun⟩
  refine ⟨a, hprepare, fun stop bulk walk emissions result hruns events rest hsplit => ?_, hall⟩
  refine hall events fun event hmem => ?_
  have hdelivered := walk_delivered (sourceIdsOf a.dependencies) hruns
  obtain ⟨emission, hemission, heq⟩ := List.mem_map.1 (hsplit ▸ List.mem_append_left rest hmem)
  exact hdelivered emission hemission event heq

/-- The section of one bit is accepted. -/
theorem sharedSection_accepted : ∃ t d w₁ w', Types.parse sharedStrings sharedFile = (.ok t, w₁) ∧
    Declarations.read t sharedSection = (.ok d, w') ∧ d.active = [(1, 0)] ∧ d.recipes.length = 1 ∧
      d.encodings = [.bits 1] ∧ t.scalar 0 = some (.b2, [1, 2], 2) := by
  have hrun : ((Types.parse sharedStrings sharedFile).1.toOption.bind fun t =>
      (Declarations.read t sharedSection).1.toOption.map fun d =>
        (d.active, d.recipes.length, d.encodings)) = some ([(1, 0)], 1,
          [.bits 1]) := by decide +kernel
  have hscalar : ((Types.parse sharedStrings sharedFile).1.toOption.bind fun t => t.scalar 0) =
      some (.b2, [1, 2], 2) := by decide +kernel
  obtain ⟨t, ht, hrun⟩ := Option.bind_eq_some_iff.1 hrun
  obtain ⟨w₁, hparse⟩ := Decoder.exists_ok ht
  obtain ⟨d, hd, hrun⟩ := Option.map_eq_some_iff.1 hrun
  obtain ⟨w', hread⟩ := Decoder.exists_ok hd
  obtain ⟨hactive, hrest⟩ := Prod.mk.inj hrun
  obtain ⟨hlength, hencodings⟩ := Prod.mk.inj hrest
  rw [ht] at hscalar
  exact ⟨t, d, w₁, w', hparse, hread, hactive, hlength, hencodings, hscalar⟩

/-- The bit of `sharedSection` at the end of its cycle. -/
theorem assembly_sized_bit : ∃ t d w₁ w' a notifications c,
    Types.parse sharedStrings sharedFile = (.ok t, w₁) ∧
      Declarations.read t sharedSection = (.ok d, w') ∧ d.encodings = [.bits 1] ∧
      prepare t d.recipes d.active false byId [⟨0, 0, false, .bits 1, .bits 1, 0⟩] sharedSection =
        (.ok a, sharedSection) ∧
      a.run [.scalar ⟨1, 0, 0, 0, .ordinal 1, false, noRoute⟩, .listEnd 0] =
        some (notifications, c) ∧
      ∀ index time v, .value index time v ∈ notifications → Query.SizedAt d.encodings index v := by
  obtain ⟨t, d, w₁, w', hparse, hread, hactive, hlength, hencodings, hscalar⟩ :=
    sharedSection_accepted
  have hsignals : ∀ signal ∈ [(⟨0, 0, false, .bits 1, .bits 1, 0⟩ : Signal)],
      signal.index < d.recipes.length := by
    intro signal hmem
    obtain rfl := List.mem_singleton.1 hmem
    rw [hlength]
    exact Nat.one_pos
  obtain ⟨a, hprepare, -, hall⟩ :=
    assembly_sized hparse hread byId_sorts hsignals false sharedSection
  have hevents : EventsDelivered t d.active (sourceIdsOf a.dependencies)
      [.scalar ⟨1, 0, 0, 0, .ordinal 1, false, noRoute⟩, .listEnd 0] := by
    intro event hmem
    rcases List.mem_cons.1 hmem with heq | hmem
    · cases heq
      refine ⟨⟨0, ?_, ⟨.b2, [1, 2], 2, hscalar, .ordinal rfl (by decide)⟩⟩, .inl rfl⟩
      rw [hactive]
      rfl
    · cases List.mem_singleton.1 hmem
  obtain ⟨notifications, c, hconsumed, hsized⟩ := hall _ hevents
  exact ⟨t, d, w₁, w', a, notifications, c, hparse, hread, hencodings, hprepare, hconsumed, hsized⟩

end Assembly

open Assembly

/-- **Values of a GHW file.** What a read of an accepted file hands over is sized. -/
theorem Reader.Assembles.sized {r : Reader} {checked : Bool} (h : r.Accepted checked)
    {signals : List Signal} {slots : List Recipe} {a : Assembly} {events : List Event}
    {notifications : List Notification}
    (hassembles : r.Assembles signals slots a events notifications) :
    ∀ index time v, .value index time v ∈ notifications →
      Query.SizedAt r.declarations.encodings index v := by
  obtain ⟨strings, w₀, w₁, hparse⟩ := h.parsed
  obtain ⟨w, w', hread⟩ := h.declared
  obtain ⟨a', hconsumed⟩ := hassembles.consumed
  exact hassembles.prepared.sized hparse hread hassembles.indices hassembles.delivered hconsumed

end Ghw
end Ondas
