import Ondas.Query.Session

/-!
# Answers that do not depend on what is cached

Two selections of the same handles over readers of the same stream answer every operation alike
(`Source.Serves.alike`): what operations left in them, and which reader an operation used, is not
seen. `Selection.ReachedIn` are the selections that operations leave when each of them may use
another reader.

A traversal looks only at the owned form of a value (`consume_owned`), so readers that spell values
in another case are alike too (`readTicksFrom_owned`).
-/

namespace Ondas.Query

open Library
open Vcd (Position)

/-! ## Owned values -/

/-- A delivery with its value owned. -/
def Delivery.owned : Delivery → Delivery
  | .record base value time position => .record base (value.map Value.toOwned) time position
  | .tick time => .tick time

/-- A reader whose callbacks are handed owned values. -/
def Source.owned (src : Source) : Source where
  backend := src.backend
  read := fun bases stop origin callback c =>
    src.read bases stop origin (fun c d => callback c d.owned) c
  parallelPrefix := src.parallelPrefix

section
variable {σ B : Type} (tr : Traversal σ B)

/-- A write keeps the owned form of its value. -/
theorem writeSlot_owned (value : Value) (index : Nat) (work : List Slot × List Nat) :
    writeSlot tr value.toOwned index work = writeSlot tr value index work := by
  cases value with
  | event occurrences => rfl
  | real raw => rfl
  | string text => rfl
  | bits digits =>
    show writeSlot tr (.bits (digits.map toAsciiLowercase)) index work = _
    have hidem : (Value.bits (digits.map toAsciiLowercase)).toOwned = (Value.bits digits).toOwned :=
      Value.toOwned_idem (.bits digits)
    unfold writeSlot
    dsimp only
    cases tr.plan.retained[index]? with
    | none =>
      dsimp only
      rw [hidem]
      rfl
    | some signal =>
      have hproject : (project (.bits (digits.map toAsciiLowercase)) signal).toOwned =
          (project (.bits digits) signal).toOwned := by
        rw [toOwned_project, toOwned_project, hidem]
      dsimp only
      rw [hproject]
      rfl

/-- Writing the owned form of a value is writing the value. -/
theorem writeSlots_owned (value : Value) (indices : List Nat) (work : List Slot × List Nat) :
    writeSlots tr value.toOwned indices work = writeSlots tr value indices work := by
  induction indices generalizing work with
  | nil => rfl
  | cons index rest ih =>
    unfold writeSlots
    rw [writeSlot_owned]
    cases writeSlot tr value index work with
    | error e => rfl
    | ok work' => exact ih work'

/-- A delivery is consumed as its owned form is. -/
theorem consume_owned (st : Tally σ) (d : Delivery) : consume tr st d.owned = consume tr st d := by
  have htake : ∀ (st : Tally σ) base (value : Except Error Value) time position,
      st.take tr base (value.map Value.toOwned) time position =
      st.take tr base value time position := by
    intro st base value time position
    cases value with
    | error e => rfl
    | ok v => simp only [Except.map, Tally.take, writeSlots_owned]
  cases d with
  | tick time => rfl
  | record base value time position => simp only [Delivery.owned, consume, htake]

/-- A traversal of a reader is one of its owned deliveries. -/
theorem readTicksFrom_owned (sizes : Sizes) (src : Source) (sel : Selection) (start : Option Nat)
    (stop : Nat) (visitor : TickVisitor σ B) (c : σ) :
    sel.readTicksFrom sizes src.owned start stop visitor c =
      sel.readTicksFrom sizes src start stop visitor c := by
  have hseed : sel.seed sizes src.owned start = sel.seed sizes src start := rfl
  unfold Selection.readTicksFrom
  simp only [Source.owned, consume_owned] at hseed ⊢
  rfl

end

section
variable {w : Waveform} {recs : List Record} {s : Signal} {t : Nat}

/-- A record with its value owned. -/
def Record.owned (r : Record) : Record := { r with value := r.value.toOwned }

/-- A stream of owned records has the same histories. -/
theorem history_owned (base : Nat) : history (recs.map Record.owned) base = history recs base := by
  unfold history
  rw [List.filterMap_map]
  refine List.filterMap_congr fun r _ => ?_
  simp [Record.owned]

theorem recorded_owned : recorded (recs.map Record.owned) = recorded recs := by
  simp [recorded, Record.owned, Function.comp_def]

/-- The owned records carry the same events. -/
theorem eventsAt_owned (base : Nat) :
    eventsAt (recs.map Record.owned) base t = eventsAt recs base t := by
  have hoccurrences : ∀ r : Record, r.owned.occurrences = r.occurrences := by
    intro r
    unfold Record.occurrences Record.owned
    cases r.value <;> rfl
  unfold eventsAt
  rw [List.filter_map, List.map_map]
  exact congrArg List.sum (List.map_congr_left fun r _ => hoccurrences r)

/-- A stream of owned records gives the same observations. -/
theorem sampleAt_owned : w.sampleAt (recs.map Record.owned) t s = w.sampleAt recs t s := by
  have hentering : w.enteringAt (recs.map Record.owned) s = w.enteringAt recs s := by
    funext t
    simp only [Waveform.enteringAt, history_owned]
  have hvalue : w.valueAt (recs.map Record.owned) s = w.valueAt recs s := by
    funext t
    simp only [Waveform.valueAt, history_owned]
  simp only [Waveform.sampleAt, Waveform.committedAt, countAt, hentering, hvalue, recorded_owned,
    eventsAt_owned]

end

/-! ## Selections over many readers -/

/-- The selections that operations leave, each over some reader of a family. -/
inductive Selection.ReachedIn (sizes : Sizes) (readers : Source → Prop) (w : Waveform)
    (signals : List Signal) : Selection → Prop
  | new {sel : Selection} : Selection.new w signals = .ok sel →
      ReachedIn sizes readers w signals sel
  | read {sel : Selection} {src : Source} {σ B : Type} (start : Option Nat) (stop : Nat)
      (visitor : TickVisitor σ B) (c : σ) : readers src → ReachedIn sizes readers w signals sel →
      ReachedIn sizes readers w signals (sel.readTicksFrom sizes src start stop visitor c).1
  | cleared {sel : Selection} : ReachedIn sizes readers w signals sel →
      ReachedIn sizes readers w signals sel.cleared

section
variable {sizes : Sizes} {readers : Source → Prop} {w : Waveform} {signals : List Signal}
  {sel : Selection} {whole : List Record} {stored : Position → List Record → Prop}

/-- Operations keep the waveform, the signals and the plan of a selection. -/
theorem Selection.ReachedIn.fresh (h : sel.ReachedIn sizes readers w signals) :
    Selection.new w signals = .ok sel.cleared := by
  induction h with
  | new hnew =>
    unfold Selection.new at hnew ⊢
    split at hnew
    · cases hnew
    · cases hnew
      rfl
  | read start stop visitor c _ _ ih => rw [readTicksFrom_cleared]; exact ih
  | cleared _ ih => exact ih

/-- A selection that operations over one reader leave. -/
theorem Selection.Reached.reachedIn {src : Source} (h : sel.Reached sizes src w signals) :
    sel.ReachedIn sizes (fun src' => src' = src) w signals := by
  induction h with
  | new hnew => exact .new hnew
  | read start stop visitor c _ ih => exact .read start stop visitor c rfl ih
  | cleared _ ih => exact .cleared ih

/-- The snapshots of a reached selection are worth resuming, when all readers read one stream. -/
theorem Selection.ReachedIn.sound (h : sel.ReachedIn sizes readers w signals)
    (htries : ∀ src, readers src → src.owned.Tries w sel.plan whole stored) :
    sel.Sound whole stored := by
  induction h with
  | new hnew => exact (Selection.new_sound hnew whole stored).1
  | @read sel₀ src σ B start stop visitor c hsrc h ih =>
    have hplan : (sel₀.readTicksFrom sizes src start stop visitor c).1.plan = sel₀.plan :=
      readTicksFrom_plan
    have hwaveform : sel₀.waveform = w :=
      (Selection.new_sound h.fresh [] fun _ _ => False).2.1
    rw [hplan] at htries
    rw [← readTicksFrom_owned]
    exact (readTicksFrom_sound (hwaveform ▸ htries src hsrc) (ih htries)).1
  | cleared _ ih => exact ⟨(ih htries).plans, nofun, nofun⟩

end

/-! ## The same answers -/

/-- Two selections, each over its reader, give the same answers to every operation. -/
structure Alike (sizes : Sizes) (src : Source) (sel : Selection) (src' : Source)
    (sel' : Selection) :
    Prop where
  ticks : ∀ {σ B : Type} (start : Option Nat) (stop : Nat) (visitor : TickVisitor σ B) (c : σ),
    (sel.readTicksFrom sizes src start stop visitor c).2.2 =
      (sel'.readTicksFrom sizes src' start stop visitor c).2.2
  scans : ∀ {σ B : Type} (range : TimeRange) (visitor : ScanVisitor σ B) (c : σ),
    (sel.scanEach sizes src range visitor c).2 = (sel'.scanEach sizes src' range visitor c).2
  points : ∀ {σ B : Type} (time : Nat) (visitor : σ → Sample → σ × ControlFlow B) (c : σ),
    (sel.visitSamples sizes src time visitor c).2 = (sel'.visitSamples sizes src' time visitor c).2
  rows : ∀ times : List Nat,
    (sel.samplesAt sizes src times).2 = (sel'.samplesAt sizes src' times).2
  traces : ∀ range : TimeRange, (sel.traces sizes src range).2 = (sel'.traces sizes src' range).2
  queries : ∀ {σ B : Type} (range : TimeRange) (drivers : List Nat) (visitor : QueryVisitor σ B)
    (c : σ), (sel.query sizes src range drivers visitor c).2 =
      (sel'.query sizes src' range drivers visitor c).2

section
variable {σ B : Type} {sizes : Sizes} {src : Source} {sel : Selection} {whole : List Record}
  {stored : Position → List Record → Prop}

/-! What each operation answers over a served stream; the snapshots do not occur in it. -/

/-- A traversal visits the slots of the reference at the recorded ticks, whatever the cache
holds. -/
theorem readTicksFrom_answer (hserves : src.Serves sel.waveform sel.plan whole stored)
    (hsound : sel.Sound whole stored) (start : Option Nat) (stop : Nat) (visitor : TickVisitor σ B)
    (c : σ) : (sel.readTicksFrom sizes src start stop visitor c).2.2 =
      sweep visitor c (views sel.waveform sel.plan whole (published (upTo stop whole) start)) := by
  rcases hvisit : sweep visitor c (views sel.waveform sel.plan whole
    (published (upTo stop whole) start)) with ⟨c', outcome⟩
  obtain ⟨sel', slots, hread, -⟩ := readTicksFrom_served hserves hsound hvisit
  rw [hread]

/-- A scan visits the emissions of the reference. -/
theorem scanEach_answer (hserves : src.Serves sel.waveform sel.plan whole stored)
    (hsound : sel.Sound whole stored) (range : TimeRange) (visitor : ScanVisitor σ B) (c : σ) :
    (sel.scanEach sizes src range visitor c).2 = ((visit visitor c (sel.emissions whole range)).1,
      .ok (visit visitor c (sel.emissions whole range)).2) := by
  rcases hvisit : visit visitor c (sel.emissions whole range) with ⟨c', flow⟩
  obtain ⟨sel', hscan, -⟩ := scanEach_served hserves hsound hvisit
  rw [hscan]

/-- The samples at a tick are those of the reference. -/
theorem visitSamples_answer (hserves : src.Serves sel.waveform sel.plan whole stored)
    (hsound : sel.Sound whole stored) (t : Nat) (visitor : σ → Sample → σ × ControlFlow B) (c : σ) :
    (sel.visitSamples sizes src t visitor c).2 = ((visit visitor c (sel.sampleAt whole t)).1,
      .ok (visit visitor c (sel.sampleAt whole t)).2) := by
  rcases hvisit : visit visitor c (sel.sampleAt whole t) with ⟨c', flow⟩
  obtain ⟨sel', hsamples, -⟩ := visitSamples_served hserves hsound hvisit
  rw [hsamples]

/-- The rows at some ticks are those of the reference. -/
theorem samplesAt_answer (hserves : src.Serves sel.waveform sel.plan whole stored)
    (hsound : sel.Sound whole stored) (times : List Nat) : (sel.samplesAt sizes src times).2 =
      .ok (times.map fun t => (t, sel.sampleAt whole t)) := by
  obtain ⟨sel', hrows, -⟩ := samplesAt_served hserves hsound
  rw [hrows]

/-- The traces of a range are those of the reference. -/
theorem traces_answer (hserves : src.Serves sel.waveform sel.plan whole stored)
    (hsound : sel.Sound whole stored) (range : TimeRange) :
    (sel.traces sizes src range).2 = .ok (sel.tracesOf whole range) := by
  obtain ⟨sel', htraces, -⟩ := traces_served hserves hsound
  rw [htraces]

/-- A query visits the contexts of the reference, after its drivers are checked. -/
theorem query_answer (hserves : src.Serves sel.waveform sel.plan whole stored)
    (hsound : sel.Sound whole stored) (range : TimeRange) (drivers : List Nat)
    (visitor : QueryVisitor σ B) (c : σ) : (sel.query sizes src range drivers visitor c).2 =
      match validateIndices sel.signals.length drivers with
      | .error e => (c, .error e)
      | .ok () => visitContexts visitor c (sel.contexts whole range drivers) := by
  cases hdrivers : validateIndices sel.signals.length drivers with
  | error e =>
    unfold Selection.query
    rw [hdrivers]
  | ok u =>
    rcases hvisit : visitContexts visitor c (sel.contexts whole range drivers) with ⟨c', outcome⟩
    obtain ⟨sel', hquery, -⟩ := query_served hserves hsound hdrivers hvisit
    rw [hquery]

end

section
variable {sizes : Sizes} {src src' : Source} {sel sel' : Selection} {whole : List Record}
  {stored stored' : Position → List Record → Prop}

/-- The contexts of a query do not look at the snapshots. -/
theorem contexts_cleared (range : TimeRange) (drivers : List Nat) :
    sel.cleared.contexts whole range drivers = sel.contexts whole range drivers := by
  have hfrom : ∀ (ticks : List Nat) (previousTick : Option Nat) (previousEvents : List Nat),
      sel.cleared.contextsFrom whole drivers range.start previousTick previousEvents ticks =
        sel.contextsFrom whole drivers range.start previousTick previousEvents ticks := by
    intro ticks
    induction ticks with
    | nil => exact fun _ _ => rfl
    | cons t ticks ih =>
      intro previousTick previousEvents
      unfold Selection.contextsFrom
      rw [ih]
      rfl
  unfold Selection.contexts
  rw [hfrom]
  rfl

/-- **Nothing cached is seen.** Two selections of the same handles, with snapshots of the same
stream, answer every operation alike. -/
theorem Source.Serves.alike (hserves : src.Serves sel.waveform sel.plan whole stored)
    (hserves' : src'.Serves sel'.waveform sel'.plan whole stored') (hsound : sel.Sound whole stored)
    (hsound' : sel'.Sound whole stored') (hsame : sel'.cleared = sel.cleared) :
    Alike sizes src sel src' sel' := by
  have hwaveform : sel'.waveform = sel.waveform :=
    show sel'.cleared.waveform = sel.cleared.waveform by rw [hsame]
  have hsignals : sel'.signals = sel.signals :=
    show sel'.cleared.signals = sel.cleared.signals by rw [hsame]
  have hplan : sel'.plan = sel.plan := show sel'.cleared.plan = sel.cleared.plan by rw [hsame]
  refine ⟨fun start stop visitor c => ?_, fun range visitor c => ?_, fun time visitor c => ?_,
    fun times => ?_, fun range => ?_, fun range drivers visitor c => ?_⟩
  · rw [readTicksFrom_answer hserves hsound, readTicksFrom_answer hserves' hsound',
      hwaveform, hplan]
  · have hemissions : sel'.emissions whole range = sel.emissions whole range :=
      show sel'.cleared.emissions whole range = sel.cleared.emissions whole range by rw [hsame]
    rw [scanEach_answer hserves hsound, scanEach_answer hserves' hsound', hemissions]
  · have hsample : sel'.sampleAt whole time = sel.sampleAt whole time :=
      show sel'.cleared.sampleAt whole time = sel.cleared.sampleAt whole time by rw [hsame]
    rw [visitSamples_answer hserves hsound, visitSamples_answer hserves' hsound', hsample]
  · have hsample : sel'.sampleAt whole = sel.sampleAt whole :=
      show sel'.cleared.sampleAt whole = sel.cleared.sampleAt whole by rw [hsame]
    rw [samplesAt_answer hserves hsound, samplesAt_answer hserves' hsound', hsample]
  · have htraces : sel'.tracesOf whole range = sel.tracesOf whole range :=
      show sel'.cleared.tracesOf whole range = sel.cleared.tracesOf whole range by rw [hsame]
    rw [traces_answer hserves hsound, traces_answer hserves' hsound', htraces]
  · have hcontexts : sel'.contexts whole range drivers = sel.contexts whole range drivers := by
      rw [← contexts_cleared, hsame, contexts_cleared]
    rw [query_answer hserves hsound, query_answer hserves' hsound', hcontexts, hsignals]

/-- Readers are alike when their owned deliveries are. -/
theorem Alike.of_owned (h : Alike sizes src.owned sel src'.owned sel') :
    Alike sizes src sel src' sel' := by
  obtain ⟨hticks, hscans, hpoints, hrows, htraces, hqueries⟩ := h
  have hscan : ∀ {σ B : Type} (src : Source) (sel : Selection) (range : TimeRange)
      (visitor : ScanVisitor σ B) (c : σ),
      sel.scanEach sizes src.owned range visitor c = sel.scanEach sizes src range visitor c := by
    intro σ B src sel range visitor c
    simp only [Selection.scanEach, readTicksFrom_owned]
  refine ⟨fun start stop visitor c => ?_, fun range visitor c => ?_, fun time visitor c => ?_,
    fun times => ?_, fun range => ?_, fun range drivers visitor c => ?_⟩
  · have := hticks start stop visitor c
    rwa [readTicksFrom_owned, readTicksFrom_owned] at this
  · have := hscans range visitor c
    rwa [hscan, hscan] at this
  · have := hpoints time visitor c
    simp only [Selection.visitSamples, hscan] at this ⊢
    exact this
  · have := hrows times
    simp only [Selection.samplesAt, readTicksFrom_owned] at this ⊢
    exact this
  · have := htraces range
    simp only [Selection.traces, hscan] at this ⊢
    exact this
  · have := hqueries range drivers visitor c
    simp only [Selection.query, readTicksFrom_owned] at this ⊢
    exact this

end
end Ondas.Query
