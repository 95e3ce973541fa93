import Ondas.Library.Pipeline
import Ondas.Vcd.Prefix

/-!
# Whole reads in parallel

`parallel_full` reads a body that opened in chunks with one thread for each chunk. A worker
(`FullWorker`) walks over its range and collects the records in batches. It sends a batch when it is
full, at its first two ticks, and while its channel is the one that is emptied also each mebibyte.
The channels are bounded, and the reading thread empties them in the order of the chunks
(`Pipe.Step` over the crew `fullCrew`).

Whatever the threads do when, the visitor is handed the records of a serial read, in their order, up
to the letter case of bits; the read ends as a serial one does, or with the failure of a worker; and
the threads neither wait for each other for ever nor run for ever (`parallelFull_serial`).
-/

namespace Ondas.Vcd

open Library

/-! ## Records on their way -/

/-- `FullValue`. -/
inductive FullValue where
  | bit (byte : UInt8)
  | other (value : Value)
  deriving DecidableEq, Repr

/-- `FullValue::from_ref`. -/
def FullValue.fromRef : Value → FullValue
  | .bits [digit] => .bit (toAsciiLowercase digit)
  | value => .other value.toOwned

/-- `FullValue::as_ref`. -/
def FullValue.asRef : FullValue → Value
  | .bit byte => .bits [byte]
  | .other value => value

/-- `FullRecord`. -/
structure FullRecord where
  index : Nat
  time : Nat
  value : FullValue
  position : Position
  deriving DecidableEq, Repr

/-- The record that a worker sends. -/
def Record.full (rec : Record) : FullRecord :=
    ⟨rec.index, rec.time, .fromRef rec.value, rec.position⟩

/-- The record that the visitor is handed. -/
def FullRecord.shown (full : FullRecord) : Record :=
  ⟨full.index, full.time, full.value.asRef, full.position⟩

/-- A record with an owned value. -/
def Record.owned (rec : Record) : Record := { rec with value := rec.value.toOwned }

theorem asRef_fromRef (value : Value) : (FullValue.fromRef value).asRef = value.toOwned := by
  unfold FullValue.fromRef
  split <;> rfl

/-- A record that was sent is handed over with an owned value. -/
@[simp] theorem Record.shown_full (rec : Record) : rec.full.shown = rec.owned := by
  unfold full FullRecord.shown owned
  rw [asRef_fromRef]

/-! ## Workers -/

/-- `flush_startup`, with the variables it leaves: the first record of a chunk may finish a tick of
the chunk before it, and the next tick may finish its own first tick. -/
def flushStartup (firstTime : Option Nat) (firstTransition : Bool) (time : Nat) :
    Bool × Option Nat × Bool :=
  let firstRecord := firstTime.isNone
  let nextTick := !firstTransition && firstTime.any fun first => decide (first ≠ time)
  (firstRecord || nextTick, some (firstTime.getD time), firstTransition || nextTick)

/-- Where a worker is: in its walk, in a send inside the walk, behind the walk with the failure it
ended with, or at its end. -/
inductive FullPhase where
  | walking
  | sending
  | finishing (failure : Option Error)
  | closed

/-- A worker of `parallel_full` on a range that ends at `stop`: the callbacks of the current turn of
its walk that are not made, where that turn leads, and the variables of the thread. -/
structure FullWorker where
  stop : Nat
  emits : List Emit
  next : Outcome Walk (Except Error Walk)
  batch : List FullRecord
  firstTime : Option Nat
  firstTransition : Bool
  phase : FullPhase

/-- How a walk over a range ends. -/
def rangeFailure (stop : Nat) : Except Error Walk → Option Error
  | .ok w => if w.tokens.offset = stop then none else some (malformed "unexpected EOF in VCD chunk")
  | .error e => some e

/-- The step of a worker that does not send. `flag` is the number of the channel that it sees
emptied. -/
inductive FullWorker.Own (args : WalkArgs) (batchLen : Nat) :
    Nat → Nat → Bool → FullWorker → FullWorker → Prop
  | turn {i flag : Nat} {canceled : Bool} {w : FullWorker} {walk : Walk} : w.phase = .walking →
      w.emits = [] → w.next = .next walk →
      Own args batchLen i flag canceled w
        { w with emits := (walkStep args walk).1, next := (walkStep args walk).2 }
  -- A range is not read any more once the flag is set.
  | canceled {i flag : Nat} {w : FullWorker} {walk : Walk} : w.phase = .walking →
      w.emits = [] → w.next = .next walk →
      Own args batchLen i flag true w { w with next := .stop (.error (.io "VCD query canceled")) }
  | record {i flag : Nat} {canceled : Bool} {w : FullWorker} {rec : Record} {emits : List Emit}
      {flush firstTransition : Bool} {firstTime : Option Nat} : w.phase = .walking →
      w.emits = .record rec :: emits →
      flushStartup w.firstTime w.firstTransition rec.time = (flush, firstTime, firstTransition) →
      Own args batchLen i flag canceled w
        { w with
          emits := emits
          batch := w.batch ++ [rec.full]
          firstTime := firstTime
          firstTransition := firstTransition
          phase := if w.batch.length + 1 = batchLen ∨ flush = true then .sending else .walking }
  | progress {i flag : Nat} {canceled : Bool} {w : FullWorker} {emits : List Emit} :
      w.phase = .walking → w.emits = .progress :: emits →
      Own args batchLen i flag canceled w
        { w with
          emits := emits
          phase := if flag = i ∧ w.batch ≠ [] then .sending else .walking }
  | finish {i flag : Nat} {canceled : Bool} {w : FullWorker} {result : Except Error Walk} :
      w.phase = .walking → w.emits = [] → w.next = .stop result →
      Own args batchLen i flag canceled w
      { w with phase := .finishing (rangeFailure w.stop result) }
  | close {i flag : Nat} {canceled : Bool} {w : FullWorker} : w.phase = .finishing none →
      w.batch = [] → Own args batchLen i flag canceled w { w with phase := .closed }

/-- What a worker attempts to send, and what it is after that: the batch inside its walk, and after
its walk the last batch and then the failure. -/
def FullWorker.offer (w : FullWorker) : Option (Except Error (List FullRecord) × FullWorker) :=
  match w.phase with
  | .walking | .closed => none
  | .sending => some (.ok w.batch, { w with batch := [], phase := .walking })
  | .finishing failure =>
    if w.batch ≠ [] then some (.ok w.batch, { w with batch := [] })
    else failure.map fun e => (.error e, { w with phase := .closed })

/-- A worker has ended. -/
def FullWorker.isClosed (w : FullWorker) : Bool :=
  match w.phase with
  | .closed => true
  | _ => false

/-- The workers of `parallel_full`. A send that fails ends the thread. -/
def fullCrew (args : WalkArgs) (batchLen : Nat) : Crew FullWorker FullRecord Error where
  own := FullWorker.Own args batchLen
  offer := FullWorker.offer
  quit w := { w with phase := .closed }
  closed := FullWorker.isClosed

/-! ## What a worker still sends -/

section
variable {args : WalkArgs} {batchLen : Nat} {w w' : FullWorker}
  {stream : List FullRecord × Option Error}

/-- The callbacks that a worker's walk still makes, and how it ends. -/
def FullWorker.Walks (args : WalkArgs) (w : FullWorker) (out : List Emit)
    (result : Except Error Walk) : Prop :=
  match w.next with
  | .next walk => ∃ later, Runs (walkStep args) walk later result ∧ out = w.emits ++ later
  | .stop r => r = result ∧ out = w.emits

/-- The records that a worker still sends, and the failure after them. -/
def FullWorker.Makes (args : WalkArgs) (w : FullWorker) (stream : List FullRecord × Option Error) :
    Prop :=
  match w.phase with
  | .walking | .sending => ∃ out result, w.Walks args out result ∧
      stream = (w.batch ++ (records out).map Record.full, rangeFailure w.stop result)
  | .finishing failure => stream = (w.batch, failure)
  | .closed => stream = ([], none)

/-- The turns that a walk can still take, each with two callbacks that may send. -/
def turnsLeft : Outcome Walk (Except Error Walk) → Nat
  | .next walk => 6 * (walk.tokens.input.length + 1)
  | .stop _ => 0

/-- How far a worker is from its end. -/
def FullWorker.distance (w : FullWorker) : Nat :=
  match w.phase with
  | .walking => turnsLeft w.next + 2 * w.emits.length + 4
  | .sending => turnsLeft w.next + 2 * w.emits.length + 5
  | .finishing failure => (if w.batch = [] then 0 else 1) + (if failure.isSome then 1 else 0) + 1
  | .closed => 0

/-- A turn makes two callbacks at most. -/
theorem walkStep_emits (args : WalkArgs) (walk : Walk) : (walkStep args walk).1.length ≤ 2 := by
  have hturn : ∀ (marks : List Emit) (v : Walk),
      (walkTurn args marks v).1.length ≤ marks.length + 1 := by
    intro marks v
    unfold walkTurn
    split
    · exact Nat.le_succ _
    · exact Nat.le_succ _
    · split
      · next hact =>
        rw [List.length_append, List.length_map]
        rcases (Walk.act_next hact).records with hnil | ⟨index, value, hone, -⟩
        · rw [hnil]
          exact Nat.le_succ _
        · rw [hone]
          exact le_rfl
      · exact Nat.le_succ _
      · exact Nat.le_succ _
  unfold walkStep
  split
  · exact hturn _ _
  · exact (hturn _ _).trans (by decide)

/-- After a callback is made, the others still are. -/
theorem FullWorker.Walks.callback {out : List Emit} {result : Except Error Walk}
    (h : w.Walks args out result) {emit : Emit} {emits : List Emit}
    (hemits : w.emits = emit :: emits) :
    ∃ later, out = emit :: later ∧
    FullWorker.Walks args { w with emits := emits } later result := by
  unfold FullWorker.Walks at h ⊢
  cases hnext : w.next with
  | next walk =>
    rw [hnext] at h
    obtain ⟨later, hrun, rfl⟩ := h
    exact ⟨emits ++ later, by rw [hemits]; rfl, later, hrun, rfl⟩
  | stop r =>
    rw [hnext] at h
    obtain ⟨rfl, rfl⟩ := h
    exact ⟨emits, hemits, rfl, rfl⟩

/-- A callback leaves a worker in its walk, or in a send inside it. -/
theorem FullPhase.of_send (p : Prop) [Decidable p] :
    (if p then FullPhase.sending else .walking) = .walking ∨
      (if p then FullPhase.sending else .walking) = .sending := by
  split
  · exact .inr rfl
  · exact .inl rfl

/-- What a worker sends that is in its walk. -/
theorem FullWorker.makes_walking (h : w.phase = .walking ∨ w.phase = .sending) :
    w.Makes args stream ↔ ∃ out result, w.Walks args out result ∧
      stream = (w.batch ++ (records out).map Record.full, rangeFailure w.stop result) := by
  unfold FullWorker.Makes
  rcases h with h | h <;> rw [h]

/-- A step of its own keeps what a worker still sends, unless the read is canceled. -/
theorem FullWorker.Own.makes {i flag : Nat} (hown : FullWorker.Own args batchLen i flag false w w')
    (h : w.Makes args stream) : w'.Makes args stream := by
  cases hown with
  | @turn _ _ walk hphase hemits hnext =>
    obtain ⟨out, result, hwalks, rfl⟩ := (makes_walking (.inl hphase)).1 h
    unfold FullWorker.Walks at hwalks
    rw [hnext] at hwalks
    obtain ⟨later, hrun, rfl⟩ := hwalks
    rw [hemits, List.nil_append]
    have hlater : FullWorker.Walks args
        { w with emits := (walkStep args walk).1, next := (walkStep args walk).2 }
        later result := by
      unfold FullWorker.Walks
      cases hrun with
      | stop hs => simp only [hs, and_self]
      | next hs hrest =>
        simp only [hs]
        exact ⟨_, hrest, rfl⟩
    have hphase' : FullWorker.phase
        { w with emits := (walkStep args walk).1, next := (walkStep args walk).2 } = .walking :=
        hphase
    exact (makes_walking (.inl hphase')).2 ⟨later, result, hlater, rfl⟩
  | @record _ _ rec emits flush firstTransition firstTime hphase hemits _ =>
    obtain ⟨out, result, hwalks, rfl⟩ := (makes_walking (.inl hphase)).1 h
    obtain ⟨later, rfl, hlater⟩ := hwalks.callback hemits
    refine (makes_walking (FullPhase.of_send _)).2 ⟨later, result, hlater, ?_⟩
    rw [List.append_assoc]
    rfl
  | @progress _ _ emits hphase hemits =>
    obtain ⟨out, result, hwalks, rfl⟩ := (makes_walking (.inl hphase)).1 h
    obtain ⟨later, rfl, hlater⟩ := hwalks.callback hemits
    exact (makes_walking (FullPhase.of_send _)).2 ⟨later, result, hlater, rfl⟩
  | @finish _ _ result hphase hemits hnext =>
    obtain ⟨out, result', hwalks, rfl⟩ := (makes_walking (.inl hphase)).1 h
    unfold FullWorker.Walks at hwalks
    rw [hnext] at hwalks
    obtain ⟨rfl, rfl⟩ := hwalks
    show (_, _) = _
    rw [hemits, records_nil, List.map_nil, List.append_nil]
  | close hphase hbatch =>
    unfold FullWorker.Makes at h ⊢
    rw [hphase] at h
    exact h.trans (by rw [hbatch])

/-- What a worker sends is the front of what it still sends. -/
theorem FullWorker.offer_makes {message : Except Error (List FullRecord)}
    (hoffer : w.offer = some (message, w')) (h : w.Makes args stream) :
    ∃ stream', w'.Makes args stream' ∧ stream = received [message] stream' := by
  unfold FullWorker.offer at hoffer
  split at hoffer
  · cases hoffer
  · cases hoffer
  · next hphase =>
    cases hoffer
    obtain ⟨out, result, hwalks, rfl⟩ := (makes_walking (.inr hphase)).1 h
    exact ⟨_, (makes_walking (.inl rfl)).2 ⟨out, result, hwalks, rfl⟩, rfl⟩
  · next failure hphase =>
    unfold FullWorker.Makes at h
    rw [hphase] at h
    obtain rfl : stream = _ := h
    split at hoffer
    · cases hoffer
      refine ⟨([], failure), ?_, ?_⟩
      · unfold FullWorker.Makes
        simp only [hphase]
      · simp only [received, List.append_nil]
    · next hbatch =>
      obtain ⟨e, rfl, heq⟩ := Option.map_eq_some_iff.1 hoffer
      cases heq
      refine ⟨([], none), rfl, ?_⟩
      rw [Decidable.not_not.1 hbatch]
      rfl

/-- How far a worker is from its end that is in its walk. -/
theorem FullWorker.distance_le (h : w.phase = .walking ∨ w.phase = .sending) :
    w.distance ≤ turnsLeft w.next + 2 * w.emits.length + 5 := by
  rcases h with h | h <;> simp only [FullWorker.distance, h] <;> omega

/-- A step of its own brings a worker nearer to its end. -/
theorem FullWorker.Own.nearer {i flag : Nat} {canceled : Bool}
    (hown : FullWorker.Own args batchLen i flag canceled w w') : w'.distance < w.distance := by
  cases hown with
  | @turn _ _ walk hphase hemits hnext =>
    have hcallbacks := walkStep_emits args walk
    have hturns : turnsLeft (walkStep args walk).2 ≤ 6 * walk.tokens.input.length := by
      cases houtcome : (walkStep args walk).2 with
      | stop r => exact Nat.zero_le _
      | next v =>
        have hlt := walkStep_decreases args walk (walkStep args walk).1 v (by rw [← houtcome])
        rw [turnsLeft]
        omega
    have hnow : turnsLeft w.next = 6 * (walk.tokens.input.length + 1) := by
      rw [hnext]
      rfl
    simp only [FullWorker.distance, hphase, hemits, hnow]
    omega
  | canceled hphase hemits hnext =>
    simp only [FullWorker.distance, hphase, hnext, turnsLeft]
    omega
  | record hphase hemits _ =>
    refine Nat.lt_of_le_of_lt (FullWorker.distance_le (FullPhase.of_send _)) ?_
    simp only [FullWorker.distance, hphase, hemits, List.length_cons]
    omega
  | progress hphase hemits =>
    refine Nat.lt_of_le_of_lt (FullWorker.distance_le (FullPhase.of_send _)) ?_
    simp only [FullWorker.distance, hphase, hemits, List.length_cons]
    omega
  | finish hphase hemits hnext =>
    simp only [FullWorker.distance, hphase]
    split <;> split <;> omega
  | close hphase hbatch =>
    simp only [FullWorker.distance, hphase]
    exact Nat.succ_pos _

/-- A send brings a worker nearer to its end. -/
theorem FullWorker.offer_nearer {message : Except Error (List FullRecord)}
    (hoffer : w.offer = some (message, w')) : w'.distance < w.distance := by
  unfold FullWorker.offer at hoffer
  split at hoffer
  · cases hoffer
  · cases hoffer
  · next hphase =>
    cases hoffer
    simp only [FullWorker.distance, hphase]
    omega
  · next failure hphase =>
    split at hoffer
    · next hbatch =>
      cases hoffer
      simp only [FullWorker.distance, hphase, if_neg hbatch, if_true]
      omega
    · obtain ⟨e, rfl, heq⟩ := Option.map_eq_some_iff.1 hoffer
      cases heq
      simp only [FullWorker.distance, hphase]
      exact Nat.succ_pos _

/-- A worker that has not ended sends, or it takes a step of its own. -/
theorem FullWorker.busy (args : WalkArgs) (batchLen i flag : Nat) (canceled : Bool)
    (hclosed : w.isClosed = false) :
    w.offer.isSome ∨ ∃ w', FullWorker.Own args batchLen i flag canceled w w' := by
  cases hphase : w.phase with
  | walking =>
    right
    cases hemits : w.emits with
    | nil =>
      cases hnext : w.next with
      | next walk => exact ⟨_, .turn hphase hemits hnext⟩
      | stop result => exact ⟨_, .finish hphase hemits hnext⟩
    | cons emit emits =>
      cases emit with
      | progress => exact ⟨_, .progress hphase hemits⟩
      | record rec => exact ⟨_, .record hphase hemits rfl⟩
  | sending =>
    left
    unfold FullWorker.offer
    rw [hphase]
    rfl
  | finishing failure =>
    by_cases hbatch : w.batch = []
    · cases failure with
      | none => exact .inr ⟨_, .close hphase hbatch⟩
      | some e =>
        left
        simp only [FullWorker.offer, hphase, if_neg (not_not.2 hbatch)]
        rfl
    · left
      simp only [FullWorker.offer, hphase, if_pos hbatch]
      rfl
  | closed =>
    unfold FullWorker.isClosed at hclosed
    rw [hphase] at hclosed
    cases hclosed

/-- The workers send their streams, and each of them ends. -/
theorem fullCrew_lawful (args : WalkArgs) (batchLen : Nat) :
    (fullCrew args batchLen).Lawful (FullWorker.Makes args) FullWorker.distance where
  own hown h := hown.makes h
  send hoffer h := FullWorker.offer_makes hoffer h
  closed {w stream} hclosed h := by
    change w.isClosed = true at hclosed
    unfold FullWorker.isClosed at hclosed
    split at hclosed
    · next hphase =>
      unfold FullWorker.Makes at h
      rw [hphase] at h
      exact h
    · cases hclosed
  own_nearer hown := hown.nearer
  send_nearer hoffer := FullWorker.offer_nearer hoffer
  quit_nearer {w} hoffer := by
    obtain ⟨⟨message, w'⟩, hsome⟩ := Option.isSome_iff_exists.1 hoffer
    exact Nat.lt_of_le_of_lt (Nat.zero_le _) (FullWorker.offer_nearer hsome)
  busy i flag canceled w hclosed := FullWorker.busy args batchLen i flag canceled hclosed

end

/-! ## Walks that report progress -/

section
variable {args : WalkArgs} {S : List Nat} {w w' : Walk}

/-- A walk that reports progress takes the turns of one that does not. -/
theorem walkStep_marked (limit : Option Nat) (hplain : args.progressBytes = none)
    (hsel : args.selected = some S) (h : w.Same w') :
    (∃ out out' v v', walkStep args w = (out, .next v) ∧
      walkStep { args with progressBytes := limit } w' = (out', .next v') ∧
        records out' = records out ∧ v.Same v') ∨
    ∃ out out' result result', walkStep args w = (out, .stop result) ∧
      walkStep { args with progressBytes := limit } w' = (out', .stop result') ∧
        records out' = records out ∧ SameResult result result' := by
  obtain ⟨marks, last, hmarks, hstep⟩ := walkStep_eq { args with progressBytes := limit } w'
  rw [hstep, walkStep_plain hplain]
  have hread : ∀ tokens, Walk.Same { w with tokens := tokens }
      { w' with tokens := tokens, lastProgress := last } :=
    fun tokens => ⟨rfl, h.time, h.block, h.encodings, h.position⟩
  have hargs : ∀ offset v i, Walk.act { args with progressBytes := limit } offset v i =
      Walk.act args offset v i := fun offset v i => by cases i <;> rfl
  have hnone : ∀ recs : List Record, records (marks ++ recs.map .record) = recs := fun recs => by
    rw [records_append, hmarks, records_map_record, List.nil_append]
  have hitem' : w'.tokens.item w'.block = w.tokens.item w.block := by rw [h.tokens, h.block]
  have hoff : w'.tokens.offset = w.tokens.offset := by rw [h.tokens]
  unfold walkTurn
  dsimp only
  rw [hitem', hoff]
  cases w.tokens.item w.block with
  | error e => exact .inr ⟨_, _, _, _, rfl, rfl, hmarks, rfl⟩
  | ok read =>
    obtain ⟨_ | i, tokens⟩ := read
    · exact .inr ⟨_, _, _, _, rfl, rfl, hmarks, Walk.finish_same (hread tokens)⟩
    · dsimp only
      rw [hargs]
      rcases Walk.act_same hsel (hread tokens) w.tokens.offset i with
        ⟨v, v', recs, hact, hact', hv⟩ | ⟨v, v', hact, hact', hv⟩ | ⟨e, hact, hact'⟩
      · rw [hact, hact']
        refine .inl ⟨_, _, v, v', rfl, rfl, ?_, hv⟩
        rw [hnone, List.nil_append, records_map_record]
      · rw [hact, hact']
        exact .inr ⟨_, _, _, _, rfl, rfl, hmarks, Walk.finish_same hv⟩
      · rw [hact, hact']
        exact .inr ⟨_, _, _, _, rfl, rfl, hmarks, rfl⟩

/-- A walk that reports progress delivers the records of one that does not and ends alike. -/
theorem runs_marked (limit : Option Nat) (hplain : args.progressBytes = none)
    (hsel : args.selected = some S) {out : List Emit} {result : Except Error Walk}
    (h : Runs (walkStep args) w out result) (hsame : w.Same w') : ∃ out' result',
      Runs (walkStep { args with progressBytes := limit }) w' out' result' ∧
        records out' = records out ∧ SameResult result result' := by
  induction h generalizing w' with
  | stop hs =>
    rcases walkStep_marked limit hplain hsel hsame with
      ⟨out, out', v, v', h, -⟩ | ⟨out, out', r, r', h, h', hrecs, hr⟩
    · rw [hs] at h
      cases h
    · rw [hs] at h
      cases h
      exact ⟨out', r', .stop h', hrecs, hr⟩
  | next hs _ ih =>
    rcases walkStep_marked limit hplain hsel hsame with
      ⟨out, out', v, v', h, h', hrecs, hv⟩ | ⟨out, out', r, r', h, -⟩
    · rw [hs] at h
      cases h
      obtain ⟨later, result', hrun', hlater, hresult⟩ := ih hv
      exact ⟨out' ++ later, result',
        .next h' hrun', by rw [records_append, records_append, hrecs, hlater],
        hresult⟩
    · rw [hs] at h
      cases h

/-- A walk whose source is cut delivers the front of what the whole walk delivers, by induction on
the cut one. -/
theorem query_front (hsel : args.selected = some S) {out : List Emit} {result : Except Error Walk}
    (h : Runs (walkStep args) w out result) (htime : w.time ≤ args.stop) : ∀ {w' : Walk}
    {out' : List Emit} {result' : Except Error Walk}, w.Agree w' → w.tokens.Grows w'.tokens →
    Runs (walkStep args) w' out' result' → records out <+: records out' := by
  induction h with
  | stop hs =>
    intro w' out' result' _ _ _
    rw [(walkStep_stop hs).1]
    exact List.nil_prefix
  | @next w v emitted out result hs _ ih =>
    intro w' out' result' hagree hgrow hrun'
    obtain ⟨i, tokens, last, -, hact⟩ := walkStep_next hs
    have hgoes := Walk.act_next hact
    have hv : v.time ≤ args.stop := by
      by_cases hmoved : v.time = w.time
      · exact hmoved.le.trans htime
      · exact hgoes.stop hmoved
    rcases walkStep_query ⟨rfl, rfl, rfl, rfl⟩ hsel hagree hgrow hs with
      ⟨emitted', v', hs', hrecs, hagree', hgrow'⟩ | ⟨emitted', v', -, -, -, hlt, -⟩
    · obtain ⟨later, rfl, hrest⟩ := (Steps.single hs').rest hrun'
      rw [records_append, records_append, hrecs]
      exact (List.prefix_append_right_inj _).2 (ih hv hagree' hgrow' hrest)
    · exact absurd hlt (Nat.not_lt_of_le hv)

/-- A walk without an end goes to the end of its input, and its input does not fail. -/
theorem runs_whole (hstop : args.stop = u64Max) {out : List Emit} {fin : Walk}
    (h : Runs (walkStep args) w out (.ok fin)) : w.tokens.fault = none ∧
      fin.tokens.offset = w.tokens.offset + w.tokens.input.length := by
  generalize hr : Except.ok (ε := Error) fin = result at h
  induction h with
  | stop hs =>
    subst hr
    obtain ⟨-, last, ⟨e, -, hr⟩ | ⟨tokens, hitem, hr⟩ | ⟨i, tokens, v, -, hact, hr⟩ |
      ⟨i, tokens, e, -, -, hr⟩⟩ := walkStep_stop hs
    · cases hr
    · obtain ⟨-, hnone, rfl⟩ := Tokens.nextInto_none (Tokens.item_none hitem)
      obtain ⟨-, rfl⟩ := Walk.finish_eq hr.symm
      exact ⟨hnone, rfl⟩
    · obtain ⟨digits, n, -, hn, hlt, -⟩ := Walk.act_leave hact
      exact absurd (integer_le hn) (by rw [hstop] at hlt; exact Nat.not_le_of_lt hlt)
    · cases hr
  | next hs _ ih =>
    obtain ⟨i, tokens, last, hitem, hact⟩ := walkStep_next hs
    obtain ⟨used, hin, hoff, hfault⟩ := (Tokens.item_advances hitem).1
    obtain ⟨hnone, hend⟩ := ih hr
    rw [(Walk.act_next hact).tokens] at hnone hend
    dsimp only at hend
    refine ⟨hfault.symm.trans hnone, ?_⟩
    rw [hend, hoff, hin, List.length_append]
    omega

end

/-! ## The last tick -/

section
variable {r : Reader} {signals : List Signal} {stop limit : Nat}

/-- A query over an accepted walk delivers no record past the last tick of that walk. -/
theorem query_times {v q fin : Walk} {out outQ : List Emit} {result : Except Error Walk}
    (hrun : Runs (walkStep r.openArgs) v out (.ok fin)) (hof : v.tokens.Of r.bytes limit)
    (hfits : Fits r fin) (hf : Follows r v q)
    (hq : Runs (walkStep (r.queryArgs signals stop)) q outQ result) :
    ∀ rec ∈ records outQ, rec.time ≤ fin.time := by
  induction hq generalizing v out with
  | stop hs =>
    rw [(walkStep_stop hs).1]
    exact fun rec hrec => by cases hrec
  | @next q q' emitted later result hs _ ih =>
    rcases follow_step hrun hof hfits hf hs with
      ⟨q'', outV, v', ho, hsv, hf', -, -⟩ | ⟨message, -, -, ho⟩ | ⟨w, p, -, ho, -⟩
    · cases ho
      obtain ⟨tail, -, hrun'⟩ := (Steps.single hsv).rest hrun
      obtain ⟨i, tokens, last, hitem, hact⟩ := walkStep_next hsv
      have hof' : v'.tokens.Of r.bytes limit := by
        rw [(Walk.act_next hact).tokens]
        exact hof.advances (Tokens.item_advances hitem).1
      have hle : v.time ≤ fin.time :=
        walk_invariant (P := fun w => v.time ≤ w.time) (fun _ _ _ _ hw => hw)
          (fun _ _ _ _ _ hact hw => hw.trans (Walk.act_next hact).time_le) hrun le_rfl
      intro rec hrec
      rw [records_append] at hrec
      rcases List.mem_append.1 hrec with hrec | hrec
      · obtain ⟨j, u, last', -, hactq⟩ := walkStep_next hs
        rcases (Walk.act_next hactq).records with hnil | ⟨index, x, hone, -⟩
        · rw [hnil] at hrec
          cases hrec
        · rw [hone] at hrec
          rw [List.mem_singleton.1 hrec]
          exact hf.time.le.trans hle
      · exact ih hrun' hof' hf' rec hrec
    · cases ho
    · cases ho

/-- A body that opened holds no record past the end of its span. -/
theorem opened_times {o : Opened} (hopen : r.openSerial = .ok o) {recs : List Record}
    (h : (r.opened o).Remains signals (r.opened o).bodyStart recs) :
    ∀ rec ∈ recs, rec.time ≤ (o.span.map TimeSpan.last).getD 0 := by
  obtain ⟨out, result, hrun⟩ := walk_total r.openArgs
    (r.walk (tokensFrom r.bytes .none r.body) true none)
  unfold Reader.openSerial at hopen
  rw [Reader.validate_eq hrun] at hopen
  split at hopen
  · cases hopen
  next fin =>
  cases hopen
  have hkeep := Walk.runs_keeps hrun
  have hfits : Fits (r.opened ⟨fin.span, fin.comments, fin.encodings⟩) fin := by
    refine ⟨fun _ _ => rfl, rfl, ?_⟩
    rw [hkeep.seen, hkeep.encodings]
    simp [Reader.walk]
  have hlast : fin.time = (fin.span.map TimeSpan.last).getD 0 := Walk.runs_spanned hrun rfl
  obtain ⟨w, outQ, rfl, hq⟩ := h
  have hcut := tokensFrom_cut r.bytes .none r.body
  rw [← tokensFrom_eq] at hcut
  have hfollows : Follows (r.opened ⟨fin.span, fin.comments, fin.encodings⟩)
      (r.walk (tokensFrom r.bytes .none r.body) true none)
      ((r.opened ⟨fin.span, fin.comments, fin.encodings⟩).startAt r.bodyStart) :=
    ⟨rfl, rfl, hcut, rfl, rfl⟩
  rw [← hlast]
  exact query_times (r := r.opened ⟨fin.span, fin.comments, fin.encodings⟩) hrun (tokensFrom_eq _ _)
    hfits hfollows hq

end

/-! ## The read -/

/-- What the system answers while a body is read in parallel: how large a record is in memory,
whether all threads start, and which reads of which worker fail. -/
structure FullEnv where
  fullRecord : Nat
  starts : Bool
  faults : Nat → Option (Nat × String)

/-- The widest value of the handles; strings have no bound. -/
def fullWidth : Nat → List Signal → Option Nat
  | width, [] => some width
  | width, signal :: signals =>
    match signal.encoding with
    | .bits bytes => fullWidth (max width bytes) signals
    | .real => fullWidth (max width 8) signals
    | .event | .unsupported => fullWidth (max width 0) signals
    | .string => none

/-- The slots of a channel. -/
def queuedBatches : Nat := 24

/-- The records of a batch, from a fixed budget across the channel slots, the batches at work and
the consumer. -/
def fullBatchLen (env : FullEnv) (workers : Nat) (signals : List Signal) : Option Nat :=
  match (fullWidth 0 signals).bind (checkedAdd env.fullRecord) with
  | none => none
  | some bytes =>
    let batchLen := min (192 * 1024 * 1024 / workers / (queuedBatches + 2) / bytes) 4096
    if batchLen = 0 then none else some batchLen

/-- The arguments of the walk of a worker. -/
def Reader.fullArgs (r : Reader) (signals : List Signal) : WalkArgs :=
  r.args u64Max (some (signals.map Signal.index)) false (some (1024 * 1024))

/-- A worker before its first turn. -/
def Reader.fullWorker (r : Reader) (fault : Option (Nat × String)) (range : Nat × Nat) :
    FullWorker where
  stop := range.2
  emits := []
  next := .next (r.walk (tokensFrom (r.bytes.take range.2) ⟨none, fault⟩ range.1) false none)
  batch := []
  firstTime := none
  firstTransition := false
  phase := .walking

/-- `parallel_full` until its threads have started, with the records of a batch. -/
def Reader.parallelFull {σ B : Type} (r : Reader) (env : FullEnv) (signals : List Signal)
    (stop : Nat) (c : σ) : Option (Nat × Pipe FullWorker FullRecord Error σ B) :=
  match r.parallel with
  | none => none
  | some source =>
    if signals.isEmpty || stop < source.lastTime then none
    else
      match fullBatchLen env (source.cuts.length - 1) signals with
      | none => none
      | some batchLen =>
        if env.starts then
          some (batchLen,
            { workers := (windows source.cuts).mapIdx fun index range =>
                (r.fullWorker (env.faults index) range, [])
              active := 0
              canceled := false
              hungUp := false
              pending := []
              visited := c
              output := none })
        else none

/-- A step of the threads of `parallel_full`. -/
def Reader.FullStep {σ B : Type} (r : Reader) (signals : List Signal) (batchLen : Nat)
    (visitor : σ → Record → σ × ControlFlow B) :
    Pipe FullWorker FullRecord Error σ B → Pipe FullWorker FullRecord Error σ B → Prop :=
  Pipe.Step (fullCrew (r.fullArgs signals) batchLen) queuedBatches fun c full =>
    visitor c full.shown

/-- What `parallel_full` returns when its threads are joined. A position is kept only when the
visitor did not break. -/
def Reader.fullEnded {σ B : Type} (r : Reader) (source : ParallelSource)
    (s : Pipe FullWorker FullRecord Error σ B) :
    Option (Reader × σ × Except Error (ControlFlow B)) :=
  s.output.map fun output =>
    match output with
    | .ok .continue =>
      ({ r with position := some ⟨source.cuts.getLast?.getD 0, source.lastTime, false⟩ }, s.visited,
        .ok .continue)
    | output => ({ r with position := none }, s.visited, output)

/-! ## What the workers send -/

section
variable {r : Reader} {signals : List Signal}

/-- A worker sends the records of its part; or, when its reads fail, records at the front of it and
then the failure. -/
def Sends (fault : Option (Nat × String)) (part : List Record)
    (stream : List FullRecord × Option Error) : Prop :=
  match fault with
  | none => stream = (part.map Record.full, none)
  | some (_, message) => ∃ recs, recs <+: part ∧
      stream = (recs.map Record.full, some (.io message))

/-- A worker on a range of an accepted body sends its part. -/
theorem fullWorker_sends {a b : Nat} (hle : a ≤ b) (hb : b ≤ r.bytes.length) {part : List Record}
    (haccepted : Accepted (r.upTo b) (r.upTo b).bytes.length ⟨a, 0, false⟩)
    (hpart : (r.upTo b).Remains signals ⟨a, 0, false⟩ part) (fault : Option (Nat × String)) :
    ∃ stream, (r.fullWorker fault (a, b)).Makes (r.fullArgs signals) stream ∧
      Sends fault part stream := by
  obtain ⟨recs, result, ⟨out, rfl, hrun⟩⟩ :=
    (r.upTo b).delivers_total ⟨none, fault⟩ signals u64Max ⟨a, 0, false⟩
  obtain ⟨out', result', hmarked, hrecs, hresult⟩ :=
    runs_marked (some (1024 * 1024)) rfl rfl hrun (⟨rfl, rfl, rfl, rfl, rfl⟩ : Walk.Same _ _)
  refine ⟨((records out).map Record.full, rangeFailure b result'), ?_, ?_⟩
  · refine (FullWorker.makes_walking (.inl rfl)).2 ⟨out', result', ⟨out', hmarked, rfl⟩, ?_⟩
    rw [hrecs]
    rfl
  · obtain ⟨w, outP, rfl, hrunP⟩ := hpart
    cases fault with
    | none =>
      obtain ⟨rfl, rfl⟩ := hrun.unique hrunP
      obtain ⟨-, hoffset⟩ := runs_whole rfl hrun
      have hlength : ((r.bytes.take b).drop a).length = b - a := by
        rw [List.length_drop, List.length_take_of_le hb]
      have hend : w.tokens.offset = b := by
        rw [hoffset]
        show a + ((r.bytes.take b).drop a).length = b
        omega
      cases result' with
      | error e => exact hresult.elim
      | ok w' =>
        show (_, _) = (_, _)
        rw [rangeFailure, hresult.tokens, if_pos hend]
    | some limit =>
      have hcut := (tokensFrom_cut (r.bytes.take b) ⟨none, some limit⟩ a).1
      rw [← tokensFrom_eq] at hcut
      have hfront := query_front rfl hrun (Nat.zero_le _)
        (show Walk.Agree _ ((r.upTo b).startAt ⟨a, 0, false⟩) from ⟨rfl, rfl, rfl⟩) hcut hrunP
      obtain ⟨-, ⟨limit', message, hreads, rfl⟩ | ⟨w', q, rfl, -⟩⟩ :=
        haccepted.delivers ⟨out, rfl, hrun⟩
      · cases hreads
        cases result' with
        | error e =>
          obtain rfl : Error.io message = e := hresult
          exact ⟨_, hfront, rfl⟩
        | ok w' => exact hresult.elim
      · obtain ⟨hnone, -⟩ := runs_whole rfl hrun
        cases hnone

/-- The streams of workers, one after the other: all parts, or the front of them before a
failure. -/
theorem drained_sends {faults : Nat → Option (Nat × String)} {parts : List (List Record)} :
    ∀ {start : Nat} {streams : List (List FullRecord × Option Error)},
    List.Forall₂ (fun entry stream => Sends (faults entry.2) entry.1 stream)
      (parts.zipIdx start) streams →
    drained streams = (parts.flatten.map Record.full, none) ∧ (∀ i, i < parts.length →
        faults (start + i) = none) ∨
      ∃ recs i limit message, recs <+: parts.flatten ∧ faults i = some (limit, message) ∧
        drained streams = (recs.map Record.full, some (.io message)) := by
  induction parts with
  | nil =>
    intro start streams h
    cases h
    exact .inl ⟨rfl, fun i hi => by cases hi⟩
  | cons part parts ih =>
    intro start streams h
    cases h with
    | @cons _ stream _ streams hfirst hrest =>
      unfold Sends at hfirst
      split at hfirst
      · next hfault =>
        obtain rfl := hfirst
        rcases ih hrest with ⟨hall, hnone⟩ | ⟨recs, i, limit, message, hfront, hfails, hall⟩
        · refine .inl ⟨?_, fun i hi => ?_⟩
          · rw [drained, hall, List.flatten_cons, List.map_append]
          · cases i with
            | zero => exact hfault
            | succ i =>
              rw [Nat.add_comm i 1, ← Nat.add_assoc]
              exact hnone i (Nat.lt_of_succ_lt_succ hi)
        · refine .inr ⟨part ++ recs, i, limit, message, ?_, hfails, ?_⟩
          · exact (List.prefix_append_right_inj _).2 hfront
          · rw [drained, hall, List.map_append]
      · next limit message hfault =>
        obtain ⟨recs, hfront, rfl⟩ := hfirst
        refine .inr ⟨recs, start, limit, message, ?_, hfault, rfl⟩
        exact hfront.trans (List.prefix_append _ _)

/-- The workers on the ranges of an accepted body send its parts. -/
theorem parted_sends {cuts : List Nat} {parts : List (List Record)}
    (hparts : r.Parted signals cuts parts)
    (faults : Nat → Option (Nat × String)) : (∀ range ∈ windows cuts,
      Accepted (r.upTo range.2) (r.upTo range.2).bytes.length ⟨range.1, 0, false⟩) →
    ∀ start, ∃ streams,
      List.Forall₂ (HandsOver (FullWorker.Makes (r.fullArgs signals)))
        (((windows cuts).zipIdx start).map fun entry => (r.fullWorker (faults entry.2) entry.1, []))
        streams ∧
      List.Forall₂ (fun entry stream => Sends (faults entry.2) entry.1 stream) (parts.zipIdx start)
        streams := by
  induction hparts with
  | @last a part hle hpart =>
    intro haccepted start
    have hwhole : (r.upTo r.bytes.length).Remains signals ⟨a, 0, false⟩ part := by
      have hsame : r.upTo r.bytes.length = r := by
        unfold Reader.upTo
        rw [List.take_length]
      rw [hsame]
      exact hpart
    obtain ⟨stream, hmakes, hsends⟩ := fullWorker_sends hle le_rfl (haccepted _ (.head _)) hwhole
      (faults start)
    exact ⟨[stream], .cons ⟨stream, hmakes, rfl⟩ .nil, .cons hsends .nil⟩
  | @cut a b cuts part parts hle hseal hpart _ _ ih =>
    intro haccepted start
    obtain ⟨stream, hmakes, hsends⟩ := fullWorker_sends hle hseal.le (haccepted _ (.head _)) hpart
      (faults start)
    obtain ⟨streams, hworkers, hrest⟩ :=
      ih (fun range hmem => haccepted range (.tail _ hmem)) (start + 1)
    exact ⟨stream :: streams, .cons ⟨stream, hmakes, rfl⟩ hworkers, .cons hsends hrest⟩

end

/-- What a visitor of owned records answers at the end of a read. -/
def visitedOwned {σ B : Type} (visitor : σ → Record → σ × ControlFlow B) (c : σ)
    (recs : List Record) :
    σ × ControlFlow B :=
  visit (fun c rec => visitor c rec.owned) c recs

/-- The last cut is the end of the file. -/
theorem Cutting.getLast?_eq {bytes : List UInt8} {cuts : List Nat} (h : Cutting bytes cuts) :
    cuts.getLast? = some bytes.length := by
  induction h with
  | last _ => rfl
  | cut _ _ _ _ ih => rw [List.getLast?_cons_cons, ih]

/-- The visitor is handed owned records. -/
theorem visit_full {σ B : Type} (visitor : σ → Record → σ × ControlFlow B) (c : σ)
    (recs : List Record) : visit (fun c (full : FullRecord) => visitor c full.shown) c
      (recs.map Record.full) = visitedOwned visitor c recs := by
  rw [visit_map]
  simp only [Record.shown_full]
  rfl

/-- What a read returns that keeps a position unless its visitor broke. -/
def Reader.leaves {σ B : Type} (r : Reader) (position : Position) :
    σ × ControlFlow B → Reader × σ × Except Error (ControlFlow B)
  | (c, .break b) => ({ r with position := none }, c, .ok (.break b))
  | (c, .continue) => ({ r with position := some position }, c, .ok .continue)

section
variable {r : Reader} {cuts : List Nat} {o : Opened} {signals : List Signal} {env : FullEnv}
    {stop : Nat}

/-- A body that opened with chunks holds some records after its start, none of them past its last
tick; and its ranges hold them in parts. -/
theorem chunked_remains (hhead : cuts.head? = some r.body) (hcut : Cutting r.bytes cuts)
    (hopen : r.parallelOpenWithCuts cuts = some o) (signals : List Signal) :
    let source : ParallelSource := ⟨cuts, (o.span.map TimeSpan.last).getD 0⟩
    ∃ parts, (r.chunked o source).Parted signals cuts parts ∧
      (r.chunked o source).Remains signals (r.chunked o source).bodyStart parts.flatten ∧
      ∀ rec ∈ parts.flatten, rec.time ≤ source.lastTime := by
  intro source
  obtain ⟨parts, hparts⟩ := chunked_parted hcut hhead hopen source signals
  have hwhole : (r.chunked o source).Remains signals (r.chunked o source).bodyStart parts.flatten :=
    hparts.remains hhead
  exact ⟨parts, hparts, hwhole, opened_times (parallelOpenWithCuts_serial hhead hcut hopen) hwhole⟩

/-- The threads of a whole read start only when its end is not before the last tick. -/
theorem parallelFull_stop {σ B : Type} {source : ParallelSource} {c : σ} {batchLen : Nat}
    {started : Pipe FullWorker FullRecord Error σ B}
    (hstart : (r.chunked o source).parallelFull env signals stop c = some (batchLen, started)) :
    source.lastTime ≤ stop := by
  simp only [Reader.parallelFull, Reader.chunked] at hstart
  split at hstart
  · cases hstart
  next hguard =>
  simp only [Bool.or_eq_true, decide_eq_true_eq, not_or, Nat.not_lt] at hguard
  exact hguard.2

/-- What joined threads leave: the records of the body were handed to the visitor, or a front of
them before the reads of a worker failed. -/
theorem joined_ended (hhead : cuts.head? = some r.body) (hcut : Cutting r.bytes cuts)
    (hopen : r.parallelOpenWithCuts cuts = some o) {σ B : Type}
    {visitor : σ → Record → σ × ControlFlow B} {c : σ} {batchLen : Nat}
    {started s : Pipe FullWorker FullRecord Error σ B} {recs : List Record} :
    let source : ParallelSource := ⟨cuts, (o.span.map TimeSpan.last).getD 0⟩
    let opened := r.chunked o source
    opened.parallelFull env signals stop c = some (batchLen, started) →
    Relation.ReflTransGen (opened.FullStep signals batchLen visitor) started s →
    s.Joined (fullCrew (opened.fullArgs signals) batchLen) →
    opened.Remains signals opened.bodyStart recs →
      opened.fullEnded source s = some (opened.leaves ⟨r.bytes.length, source.lastTime, false⟩
        (visitedOwned visitor c recs)) ∨
      ∃ front i limit message c', front <+: recs ∧ env.faults i = some (limit, message) ∧
        visitedOwned visitor c front = (c', .continue) ∧
        opened.fullEnded source s =
          some ({ opened with position := none }, c', .error (.io message)) := by
  intro source opened hstart hsteps hjoined hremains
  obtain ⟨parts, hparts, hwhole, -⟩ := chunked_remains hhead hcut hopen signals
  obtain rfl : recs = parts.flatten := Reader.Remains.unique hremains hwhole
  unfold Reader.parallelFull at hstart
  split at hstart
  · cases hstart
  next source' hsource =>
  obtain rfl : source = source' := Option.some.inj hsource
  split at hstart
  · cases hstart
  split at hstart
  · cases hstart
  split at hstart
  swap
  · cases hstart
  cases hstart
  have hlawful := fullCrew_lawful (opened.fullArgs signals) batchLen
  obtain ⟨streams, hworkers, hsends⟩ := parted_sends hparts env.faults
    (ranges_accepted hcut hopen source) 0
  have hanswers : Pipe.Answers (FullWorker.Makes (opened.fullArgs signals))
      (fun c (full : FullRecord) => visitor c full.shown)
      (answer (fun c (full : FullRecord) => visitor c full.shown) c (drained streams))
      ⟨(windows cuts).mapIdx fun index range => (opened.fullWorker (env.faults index) range, []), 0,
        false, false, [], c, none⟩ := by
    refine ⟨rfl, rfl, streams, ?_, rfl⟩
    rw [List.mapIdx_eq_zipIdx_map]
    exact hworkers
  obtain ⟨out, hout, hresult⟩ := (hanswers.run hlawful hsteps).joined hjoined
  unfold Reader.fullEnded
  rw [hout]
  rcases drained_sends hsends with ⟨hsent, -⟩ | ⟨front, i, limit, message, hfront, hfails, hsent⟩
  · left
    rw [hsent, answer, visit_full] at hresult
    rcases hvisit : visitedOwned visitor c parts.flatten with ⟨c', _ | b⟩
    · rw [hvisit] at hresult
      cases hresult
      rw [Option.map_some, hcut.getLast?_eq]
      rfl
    · rw [hvisit] at hresult
      cases hresult
      rfl
  · rw [hsent, answer, visit_full] at hresult
    rcases hvisit : visitedOwned visitor c front with ⟨c', _ | b⟩
    · rw [hvisit] at hresult
      cases hresult
      exact .inr ⟨front, i, limit, message, _, hfront, hfails, hvisit, rfl⟩
    · -- The visitor breaks before the failure, so it breaks in a serial read.
      left
      obtain ⟨more, hmore⟩ := hfront
      have hwholeVisit : visitedOwned visitor c parts.flatten = (c', .break b) := by
        unfold visitedOwned at hvisit ⊢
        rw [← hmore, visit_append, hvisit]
      rw [hvisit] at hresult
      cases hresult
      rw [hwholeVisit]
      rfl

end

/-- **Whole reads in parallel are serial reads.** For a body that opened with chunk cuts, and
handles and an end for which the threads start: the threads run to their end, whichever of them
takes the next step, and never wait for each other for ever. The records that a serial read up to
the end delivers are handed to the visitor with owned values, in their order. When the visitor
breaks the read does, and no position is kept; else the position after which nothing remains is
kept. Only when the reads of a worker fail, the read may fail as they do instead, after a front of
these records. -/
theorem parallelFull_serial (r : Reader) {cuts : List Nat} {o : Opened}
    (hhead : cuts.head? = some r.body) (hcut : Cutting r.bytes cuts)
    (hopen : r.parallelOpenWithCuts cuts = some o) {signals : List Signal} {env : FullEnv}
    {stop : Nat} {σ B : Type} (visitor : σ → Record → σ × ControlFlow B) {c : σ} {batchLen : Nat}
    {started : Pipe FullWorker FullRecord Error σ B}
    (hstart : (r.chunked o ⟨cuts, (o.span.map TimeSpan.last).getD 0⟩).parallelFull env
      signals stop c =
      some (batchLen, started)) :
    let source : ParallelSource := ⟨cuts, (o.span.map TimeSpan.last).getD 0⟩
    let opened := r.chunked o source
    WellFounded (fun s' s : Pipe FullWorker FullRecord Error σ B =>
      opened.FullStep signals batchLen visitor s s') ∧
    ∃ recs left, opened.Reads signals stop none recs left ∧
      (∀ e, stop ≤ e → ∃ left, opened.Reads signals e
        (some ⟨r.bytes.length, source.lastTime, false⟩) [] left) ∧
      ∀ s, Relation.ReflTransGen (opened.FullStep signals batchLen visitor) started s →
        (s.Joined (fullCrew (opened.fullArgs signals) batchLen) ∨
          ∃ s', opened.FullStep signals batchLen visitor s s') ∧
        (s.Joined (fullCrew (opened.fullArgs signals) batchLen) →
          opened.fullEnded source s = some (opened.leaves ⟨r.bytes.length, source.lastTime, false⟩
            (visitedOwned visitor c recs)) ∨
          ∃ front i limit message c', front <+: recs ∧ env.faults i = some (limit, message) ∧
            visitedOwned visitor c front = (c', .continue) ∧
            opened.fullEnded source s =
              some ({ opened with position := none }, c', .error (.io message))) := by
  intro source opened
  have hlawful := fullCrew_lawful (opened.fullArgs signals) batchLen
  have hstop : source.lastTime ≤ stop := parallelFull_stop hstart
  obtain ⟨parts, -, hwhole, htimes⟩ := chunked_remains hhead hcut hopen signals
  -- The records of the body are up to the end of its span, and so up to the end of the read.
  obtain ⟨left, hreads, -, -⟩ :=
    @Reader.Remains.reads opened signals none _ hwhole stop (Nat.zero_le _)
  have hall : (parts.flatten.takeWhile fun rec => rec.time ≤ stop) = parts.flatten :=
    List.takeWhile_eq_self_iff.2 fun rec hrec => decide_eq_true ((htimes rec hrec).trans hstop)
  rw [hall] at hreads
  refine ⟨Pipe.wellFounded hlawful, parts.flatten, left, hreads, fun e he => ?_, fun s hsteps =>
    ⟨Pipe.progress hlawful (by decide) s, fun hjoined =>
      joined_ended hhead hcut hopen hstart hsteps hjoined hwhole⟩⟩
  have hnone : opened.Remains signals ⟨r.bytes.length, source.lastTime, false⟩ [] :=
    remains_finished source.lastTime
  obtain ⟨left', hreads', -, -⟩ :=
    @Reader.Remains.reads opened signals (some ⟨r.bytes.length, source.lastTime, false⟩) _ hnone e
      (hstop.trans he)
  exact ⟨left', hreads'⟩

/-- A body cut before its third tick is read whole by two threads that collect its records. -/
theorem parallelFull_serial_two :
    let h : Header := ⟨0, [(ascii "!", 0)], [], [.bits 1]⟩
    let bit : Signal := ⟨0, 0, false, .bits 1, .bits 1, 0⟩
    let source : ParallelSource := ⟨[0, 12, 24], 9⟩
    let opened := (h.reader (fun _ => none) (ascii "#1\n0!\n#2\n1!\n#4\n0!\n#9\n1!\n")).chunked
      ⟨some ⟨1, 9⟩, [], [.bits 1]⟩ source
    let collect (seen : List Record) (rec : Record) : List Record × ControlFlow Unit :=
      (seen ++ [rec], .continue)
    ∃ batchLen, ∃ started : Pipe FullWorker FullRecord Error (List Record) Unit,
      opened.parallelFull ⟨120, true, fun _ => none⟩ [bit] 9 [] = some (batchLen, started) ∧
        ∃ recs left, opened.Reads [bit] 9 none recs left ∧
          ∀ s, Relation.ReflTransGen (opened.FullStep [bit] batchLen collect) started s →
            s.Joined (fullCrew (opened.fullArgs [bit]) batchLen) → opened.fullEnded source s =
              some (opened.leaves ⟨24, 9, false⟩ (visitedOwned collect [] recs)) := by
  intro h bit source opened collect
  have hcut : Cutting (ascii "#1\n0!\n#2\n1!\n#4\n0!\n#9\n1!\n") [0, 12, 24] :=
    .cut (by decide) (by decide) (by decide) (.last (by decide))
  have hsome : (opened.parallelFull (B := Unit) ⟨120, true, fun _ => none⟩ [bit] 9
      ([] : List Record)).isSome = true := by
    decide +kernel
  obtain ⟨⟨batchLen, started⟩, hstart⟩ := Option.isSome_iff_exists.1 hsome
  obtain ⟨-, recs, left, hreads, -, hall⟩ := parallelFull_serial (Header.reader
    ⟨0, [(ascii "!", 0)], [], [.bits 1]⟩ (fun _ => none) (ascii "#1\n0!\n#2\n1!\n#4\n0!\n#9\n1!\n"))
    (o := ⟨some ⟨1, 9⟩, [], [.bits 1]⟩) rfl hcut (by decide +kernel) collect hstart
  refine ⟨batchLen, started, hstart, recs, left, hreads, fun s hsteps hjoined => ?_⟩
  rcases (hall s hsteps).2 hjoined with hended | ⟨_, _, _, _, _, -, hfails, -⟩
  · exact hended
  · cases hfails

end Ondas.Vcd
