import Ondas.Query.Queries

/-!
# Selections over many operations

An operation traverses the completed ticks and leaves a selection: the one of its traversal, or that
one without its snapshots. `Selection.Reached` are the selections operations can leave, starting
from a fresh one, and their snapshots are worth resuming (`Selection.Reached.sound`).

`Source.memory` is the reader that has its records in memory.
-/

namespace Ondas.Query

open Library
open Vcd (Position)

/-! ## Reached selections -/

/-- The selections that operations over a reader leave. -/
inductive Selection.Reached (sizes : Sizes) (src : Source) (w : Waveform) (signals : List Signal) :
    Selection → Prop
  | new {sel : Selection} : Selection.new w signals = .ok sel → Reached sizes src w signals sel
  | read {sel : Selection} {σ B : Type} (start : Option Nat) (stop : Nat)
      (visitor : TickVisitor σ B) (c : σ) : Reached sizes src w signals sel →
      Reached sizes src w signals (sel.readTicksFrom sizes src start stop visitor c).1
  | cleared {sel : Selection} : Reached sizes src w signals sel →
      Reached sizes src w signals sel.cleared

section
variable {σ B : Type} {sizes : Sizes} {src : Source} {w : Waveform} {signals : List Signal}
  {sel : Selection} {whole : List Record} {stored : Position → List Record → Prop}

/-- A traversal keeps everything but the snapshots. -/
theorem readTicksFrom_cleared {start : Option Nat} {stop : Nat}
    {visitor : TickVisitor σ B} {c : σ} :
    (sel.readTicksFrom sizes src start stop visitor c).1.cleared = sel.cleared := by
  have hseed := sel.seed_cleared sizes src start
  unfold Selection.readTicksFrom
  generalize sel.seed sizes src start = sel₁ at hseed
  dsimp only
  split
  · exact hseed
  · exact hseed
  · split
    · exact hseed
    · split <;> exact hseed

/-- A traversal keeps the plan. -/
theorem readTicksFrom_plan {start : Option Nat} {stop : Nat} {visitor : TickVisitor σ B} {c : σ} :
    (sel.readTicksFrom sizes src start stop visitor c).1.plan = sel.plan :=
  show (sel.readTicksFrom sizes src start stop visitor c).1.cleared.plan = sel.cleared.plan from
    congrArg Selection.plan readTicksFrom_cleared

/-- Operations keep the waveform, the signals and the plan of a selection. -/
theorem Selection.Reached.fresh (h : sel.Reached sizes src w signals) :
    Selection.new w signals = .ok sel.cleared := by
  induction h with
  | new hnew =>
    unfold Selection.new at hnew ⊢
    split at hnew
    · cases hnew
    · cases hnew
      rfl
  | read start stop visitor c _ ih => rw [readTicksFrom_cleared]; exact ih
  | cleared _ ih => exact ih

theorem Selection.Reached.waveform_eq (h : sel.Reached sizes src w signals) : sel.waveform = w :=
  (Selection.new_sound h.fresh [] fun _ _ => False).2.1

theorem Selection.Reached.signals_eq (h : sel.Reached sizes src w signals) :
    sel.signals = signals :=
  (Selection.new_sound h.fresh [] fun _ _ => False).2.2

/-- The snapshots of a reached selection are worth resuming. -/
theorem Selection.Reached.sound (h : sel.Reached sizes src w signals)
    (htries : src.Tries w sel.plan whole stored) : sel.Sound whole stored := by
  induction h with
  | new hnew => exact (Selection.new_sound hnew whole stored).1
  | @read sel₀ σ B start stop visitor c h ih =>
    have hplan : (sel₀.readTicksFrom sizes src start stop visitor c).1.plan = sel₀.plan :=
      readTicksFrom_plan
    rw [hplan] at htries
    exact (readTicksFrom_sound (h.waveform_eq ▸ htries) (ih htries)).1
  | cleared _ ih => exact ⟨(ih htries).plans, nofun, nofun⟩

end

/-! ## Records in memory -/

/-- What the reader of records in memory hands over: the records of the selected histories up to the
end, unless it is made to fail at a record. -/
def memoryRead (bases : List Signal) (stop : Nat) (failure : Error) :
    Option Nat → List Record → List Delivery × Except Error (Option Position)
  | _, [] => ([], .ok none)
  | failAfter, r :: recs =>
    if stop < r.time then ([], .ok none)
    else if failAfter = some 0 then ([], .error failure)
    else
      let rest := memoryRead bases stop failure (failAfter.map (· - 1)) recs
      if bases.any fun base => base.index == r.base then
        (.record r.base (.ok r.value) r.time none :: rest.1, rest.2)
      else rest

/-- `Reader::Memory`. -/
def Source.memory (records : List Record) (failAfter : Option Nat) (failure : Error) : Source where
  backend := "memory"
  read := fun bases stop _ callback c =>
    let reading := if bases.isEmpty then ([], .ok none)
      else memoryRead bases stop failure failAfter records
    match visit callback c reading.1 with
    | (c, .break b) => (c, .ok (.break b), none)
    | (c, .continue) =>
      match reading.2 with
      | .error e => (c, .error e, none)
      | .ok position => (c, .ok .continue, position)
  parallelPrefix := fun _ _ => none

/-- The records of the histories of some handles. -/
def selected (bases : List Signal) (records : List Record) : List Record :=
  records.filter fun r => bases.any fun base => base.index == r.base

section
variable {w : Waveform} {plan : Plan} {records : List Record} {bases : List Signal} {stop : Nat}
  {failure : Error} {failAfter : Option Nat}

/-- A reader of records in memory hands over its records. -/
theorem mem_memoryRead {d : Delivery}
    (h : d ∈ (memoryRead bases stop failure failAfter records).1) :
    ∃ r : Record, d = .record r.base (.ok r.value) r.time none := by
  induction records generalizing failAfter with
  | nil => cases h
  | cons r records ih =>
    unfold memoryRead at h
    split at h
    · cases h
    · split at h
      · cases h
      · dsimp only at h
        split at h
        · rcases List.mem_cons.1 h with rfl | h
          · exact ⟨r, rfl⟩
          · exact ih h
        · exact ih h

/-- What a reader of records in memory hands over is in order. -/
theorem memoryRead_ordered {t : Nat} (hsorted : Chronological records)
    (ht : ∀ r ∈ selected bases records, t ≤ r.time) :
    Ordered t (memoryRead bases stop failure failAfter records).1 := by
  induction records generalizing failAfter t with
  | nil => trivial
  | cons r records ih =>
    obtain ⟨hle, hsorted⟩ := List.pairwise_cons.1 hsorted
    unfold memoryRead
    split
    · trivial
    · split
      · trivial
      · dsimp only
        split
        · next hbase =>
          refine ⟨ht r (List.mem_filter.2 ⟨by simp, hbase⟩), ih hsorted fun r' hr' => ?_⟩
          exact hle r' (List.mem_filter.1 hr').1
        · refine ih hsorted fun r' hr' => ht r' ?_
          exact List.mem_filter.2 ⟨List.mem_cons_of_mem _ (List.mem_filter.1 hr').1,
            (List.mem_filter.1 hr').2⟩

/-- No record past an end is up to it. -/
theorem upTo_nil {recs : List Record} (h : ∀ r ∈ recs, stop < r.time) : upTo stop recs = [] := by
  refine List.eq_nil_iff_forall_not_mem.2 fun r hr => ?_
  have := upTo_le r hr
  have := h r ((List.takeWhile_sublist _).subset hr)
  omega

theorem upTo_cons {r : Record} {recs : List Record} (h : r.time ≤ stop) :
    upTo stop (r :: recs) = r :: upTo stop recs :=
  List.takeWhile_cons_of_pos (decide_eq_true h)

/-- A reader of records in memory hands over a first part of those up to the end, and all of them
when it does not fail. -/
theorem memoryRead_part (hsorted : Chronological records) :
    ∃ later, selected bases records =
        decoded (memoryRead bases stop failure failAfter records).1 ++ later ∧
      (∀ r ∈ decoded (memoryRead bases stop failure failAfter records).1, r.time ≤ stop) ∧
      ∀ final, (memoryRead bases stop failure failAfter records).2 = .ok final → final = none ∧
        decoded (memoryRead bases stop failure failAfter records).1 =
          upTo stop (selected bases records) := by
  induction records generalizing failAfter with
  | nil => exact ⟨[], rfl, nofun, fun final h => by cases h; exact ⟨rfl, rfl⟩⟩
  | cons r records ih =>
    obtain ⟨hle, hsorted⟩ := List.pairwise_cons.1 hsorted
    unfold memoryRead
    by_cases hstop : stop < r.time
    · rw [if_pos hstop]
      refine ⟨_, rfl, nofun, fun final h => ?_⟩
      cases h
      refine ⟨rfl, (upTo_nil fun r' hr' => ?_).symm⟩
      rcases List.mem_cons.1 (List.mem_filter.1 hr').1 with rfl | hmem
      · exact hstop
      · exact Nat.lt_of_lt_of_le hstop (hle r' hmem)
    · rw [if_neg hstop]
      split
      · exact ⟨_, rfl, nofun, nofun⟩
      · obtain ⟨later, hsplit, hall, hended⟩ := ih hsorted
        dsimp only
        split
        · next hbase =>
          have hselected : selected bases (r :: records) = r :: selected bases records := by
            simp only [selected, List.filter_cons, hbase, if_true]
          rw [hselected, decoded_cons, upTo_cons (Nat.not_lt.1 hstop)]
          refine ⟨later, by rw [hsplit]; rfl, fun r' hr' => ?_, fun final h => ?_⟩
          · rcases List.mem_cons.1 hr' with rfl | hr'
            · exact Nat.not_lt.1 hstop
            · exact hall r' hr'
          · obtain ⟨hnone, hdecoded⟩ := hended final h
            exact ⟨hnone, by rw [hdecoded]; rfl⟩
        · next hbase =>
          have hselected : selected bases (r :: records) = selected bases records := by
            simp only [selected, List.filter_cons, hbase, if_false, Bool.false_eq_true]
          rw [hselected]
          exact ⟨later, hsplit, hall, hended⟩

/-- The deliveries of a reader of records in memory, all handed over. -/
theorem memoryRead_delivers (hsorted : Chronological records)
    (hdecoded : decoded (memoryRead bases stop failure failAfter records).1 =
      upTo stop (selected bases records)) :
    Delivers (fun _ _ => False) stop (selected bases records)
      (memoryRead bases stop failure failAfter records).1 none where
  decoded := hdecoded
  decodes := fun d hd base e time p heq => by
    obtain ⟨r, hr⟩ := mem_memoryRead hd
    cases hr.symm.trans heq
  ordered := fun t ht => memoryRead_ordered hsorted ht
  located := fun pre base v time p post hds => by
    obtain ⟨r, hr⟩ := mem_memoryRead (d := .record base (.ok v) time (some p))
      (hds ▸ List.mem_append_right _ List.mem_cons_self)
    cases hr
  final := nofun
  ticks := fun τ hτ => by
    obtain ⟨r, hr⟩ := mem_memoryRead hτ
    cases hr

/-- A selection of no history has no records. -/
theorem selected_nil : selected [] records = [] :=
  List.filter_eq_nil_iff.2 fun r _ => by simp

/-- A read of no history hands over nothing. -/
theorem memory_idle (stop : Nat) (origin : Option Position) :
    (Source.memory records failAfter failure).Answers [] stop origin [] (.ok none) := by
  intro σ B callback c
  rfl

/-- A read of some histories hands over their records. -/
theorem memory_answers (hempty : ¬ bases.isEmpty = true) :
    (Source.memory records failAfter failure).Answers bases stop none
      (memoryRead bases stop failure failAfter records).1
      (memoryRead bases stop failure failAfter records).2 := by
  intro σ B callback c
  have hsome : bases.isEmpty = false := by simpa using hempty
  unfold Source.memory
  dsimp only
  rw [hsome]
  rfl

/-- Nothing is delivered of no records. -/
theorem delivers_nil {stored : Position → List Record → Prop} (stop : Nat) :
    Delivers stored stop [] [] none where
  decoded := rfl
  decodes := nofun
  ordered := fun _ _ => trivial
  located := fun pre base v time p post hds => by cases pre <;> cases hds
  final := nofun
  ticks := nofun

/-- A reader of records in memory tries to read those of its selected histories. -/
theorem memory_tries (hsorted : Chronological records) (htyped : Typed w records)
    (hspan : ∀ r ∈ records, r.time ≤ (w.timeSpan.map TimeSpan.last).getD u64Max) :
    (Source.memory records failAfter failure).Tries w plan (selected plan.bases records)
      fun _ _ => False where
  chronological := hsorted.sublist List.filter_sublist
  typed := fun r hr => htyped r (List.mem_filter.1 hr).1
  span := fun r hr => hspan r (List.mem_filter.1 hr).1
  parallelPrefix := nofun
  fresh := fun stop => by
    by_cases hempty : plan.bases.isEmpty = true
    · rw [List.isEmpty_iff.1 hempty, selected_nil]
      exact ⟨[], [], .ok none, memory_idle stop none,
        (delivers_nil stop).attempts List.Pairwise.nil⟩
    · obtain ⟨later, hsplit, hall, hended⟩ := memoryRead_part
         hsorted
      refine ⟨_, later, _, memory_answers hempty, hsplit, hall,
        fun t ht => memoryRead_ordered hsorted ht, fun τ hτ => ?_, fun base e t p hmem => ?_,
        fun final h _ => ?_⟩
      · obtain ⟨r, hr⟩ := mem_memoryRead hτ
        cases hr
      · obtain ⟨r, hr⟩ := mem_memoryRead hmem
        cases hr
      · obtain ⟨rfl, hdecoded⟩ := hended final h
        exact memoryRead_delivers hsorted hdecoded
  resume := fun p done rest stop _ hstored => hstored.elim

/-- A reader of records in memory that does not fail ends well. -/
theorem memoryRead_ok : (memoryRead bases stop failure none records).2 = .ok none := by
  induction records with
  | nil => rfl
  | cons r records ih =>
    unfold memoryRead
    split
    · rfl
    · rw [if_neg nofun]
      dsimp only [Option.map_none]
      split <;> exact ih

/-- A reader of records in memory that does not fail reads those of its selected histories. -/
theorem memory_reads (hsorted : Chronological records) (htyped : Typed w records)
    (hspan : ∀ r ∈ records, r.time ≤ (w.timeSpan.map TimeSpan.last).getD u64Max) :
    (Source.memory records none failure).Reads w plan (selected plan.bases records)
      fun _ _ => False where
  toCarries := (memory_tries hsorted htyped hspan).toCarries
  fresh := fun stop => by
    by_cases hempty : plan.bases.isEmpty = true
    · rw [List.isEmpty_iff.1 hempty, selected_nil]
      exact ⟨[], none, memory_idle stop none, delivers_nil stop⟩
    · obtain ⟨later, -, -, hended⟩ := memoryRead_part
         hsorted
      have hanswers : (Source.memory records none failure).Answers plan.bases stop none _ _ :=
        memory_answers hempty
      rw [memoryRead_ok] at hanswers
      exact ⟨_, none, hanswers, memoryRead_delivers hsorted (hended none memoryRead_ok).2⟩
  resume := fun p done rest stop _ hstored => hstored.elim

end
/-! ## A recorded bus -/

/-- A waveform of a two-bit bus and its strobe. -/
def busWaveform : Waveform :=
  ⟨7, [.bits 2, .event], [], some ⟨0, 5⟩, fun i d h => by simp at h⟩

/-- The bus. -/
def bus : Signal := ⟨7, 0, false, .bits 2, .bits 2, 0⟩

/-- The low bit of the bus. -/
def busLow : Signal := ⟨7, 0, false, .bits 2, .bits 1, 0⟩

/-- The strobe. -/
def strobe : Signal := ⟨7, 1, false, .event, .event, 0⟩

/-- The bus, its low bit, the strobe and the bus again. -/
def busSelection : Selection :=
  match Selection.new busWaveform [bus, busLow, strobe, bus] with
  | .ok sel => sel
  | .error _ => ⟨busWaveform, [], ⟨[], [], [], fun _ => none, []⟩, none, none⟩

/-- The bus is written with a glitch at tick 5, where the strobe fires twice. -/
def busRecords : List Record :=
  [⟨0, 2, .bits (ascii "01")⟩, ⟨1, 2, .event 1⟩, ⟨0, 5, .bits (ascii "10")⟩, ⟨1, 5, .event 1⟩,
    ⟨0, 5, .bits (ascii "11")⟩, ⟨1, 5, .event 1⟩]

/-- The records of the bus in memory. -/
def busSource : Source := .memory busRecords none (.io "failure")

/-- The selection over the bus is made without an error. -/
theorem busSelection_reached (sizes : Sizes) :
    busSelection.Reached sizes busSource busWaveform [bus, busLow, strobe, bus] := by
  have hok : (Selection.new busWaveform [bus, busLow, strobe, bus]).toBool = true := by
    decide +kernel
  refine .new ?_
  unfold busSelection
  split
  · next hnew => exact hnew
  · next hnew => rw [hnew] at hok; cases hok

/-- The events of a tick are among those of the stream. -/
theorem eventsAt_le {recs : List Record} (base t : Nat) :
    eventsAt recs base t ≤ (recs.map Record.occurrences).sum := by
  induction recs with
  | nil => exact Nat.le_refl _
  | cons r recs ih =>
    unfold eventsAt at ih ⊢
    rw [List.filter_cons, List.map_cons, List.sum_cons]
    split
    · rw [List.map_cons, List.sum_cons]
      omega
    · omega

/-- The records of the bus are served. -/
theorem busSource_serves : busSource.Serves busWaveform busSelection.plan busRecords
    fun _ _ => False where
  toReads := by
    have hsorted : Chronological busRecords := by unfold Chronological; decide +kernel
    have hspan : ∀ r ∈ busRecords,
        r.time ≤ (busWaveform.timeSpan.map TimeSpan.last).getD u64Max := by decide +kernel
    refine memory_reads hsorted ?_ hspan
    · intro r hr
      simp only [busRecords, List.mem_cons, List.not_mem_nil, or_false] at hr
      rcases hr with rfl | rfl | rfl | rfl | rfl | rfl
      all_goals exact ⟨_, rfl, trivial⟩
  counts := fun base t => Nat.le_trans (eventsAt_le base t) (by decide +kernel)

end Ondas.Query
