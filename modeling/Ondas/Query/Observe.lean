import Ondas.Query.Read

/-!
# What the read interfaces deliver

The records a scan of a stream emits (`Waveform.emissions`) and the observation of a handle at a
tick (`Waveform.sampleAt`), as functions of the stream, and each interface of a selection against
them: a scan hands its visitor the emissions (`scanEach_served`), and every way to read a point
delivers `sampleAt`.
-/

namespace Ondas.Query

open Library
open Vcd (Position)

/-! ## Emissions -/

namespace Waveform
variable (w : Waveform) (recs : List Record)

/-- The entering state of a handle, if it has one before the start. -/
def initialAt (start : Nat) (signal : Signal) : Option ScanRef :=
  (w.enteredAt recs signal start).map fun entry => .initial signal entry.1 entry.2

/-- The records of a handle at a tick: its final value, when it is not the one that entered, and its
events. -/
def changesAt (t : Nat) (signal : Signal) : List ScanRef :=
  (if w.valueAt recs signal t = w.enteringAt recs signal t then []
    else (w.valueAt recs signal t).toList.map (.change signal t)) ++
  if 0 < countAt recs signal t then [.change signal t (.event (countAt recs signal t))] else []

/-- The records a scan of a window emits, each with the position of its entry. -/
def emissions (signals : List Signal) (start stop : Nat) : List (Nat × ScanRef) :=
  signals.zipIdx.filterMap (fun entry =>
    (w.initialAt recs start entry.1).map fun record => (entry.2, record)) ++
  (published (upTo stop recs) (some start)).flatMap fun t => signals.zipIdx.flatMap fun entry =>
    (w.changesAt recs t entry.1).map fun record => (entry.2, record)

end Waveform

section
variable {w : Waveform} {recs : List Record} {plan : Plan} {signals : List Signal}

/-- Each entry has the slot of its handle. -/
theorem entrySlots_map (hplans : plan.Plans w signals) (f : Signal → Slot) :
    entrySlots signals plan.indices (plan.retained.map f) =
      signals.zipIdx.map fun entry => (entry.2, entry.1, f entry.1) := by
  have hlength : plan.indices.length = signals.length := by
    simpa using congrArg List.length hplans.indices
  have hslot : ∀ i (hi : i < signals.length) (hindex : i < plan.indices.length),
      slotAt (plan.retained.map f) plan.indices[i] = f signals[i] := by
    intro i hi hindex
    have hget := congrArg (fun l => l[i]?) hplans.indices
    simp only [List.getElem?_map, List.getElem?_eq_getElem hindex,
      List.getElem?_eq_getElem hi, Option.map_some, Option.some.injEq] at hget
    exact slotAt_mapped hget
  refine List.ext_getElem (by simp [entrySlots, hlength]) fun i h h' => ?_
  have hi : i < signals.length := by simpa using h'
  have hindex : i < plan.indices.length := by omega
  simp only [entrySlots, List.getElem_map, List.getElem_zipIdx, List.getElem_zip, hslot i hi hindex]

/-- The slot the visitor of a tick sees holds the records of its handle. -/
theorem slotChanges_view (htyped : Typed w recs) {signal : Signal} (hvalid : w.Valid signal)
    {start t : Nat} (hstart : start ≤ t) :
    slotChanges start t signal (w.viewSlot recs t signal) = w.changesAt recs t signal := by
  unfold slotChanges Waveform.changesAt
  congr 1
  · have hview : (w.viewSlot recs t signal).pending = w.pendingAt recs t signal := rfl
    rw [hview]
    cases hpending : w.pendingAt recs t signal with
    | none =>
      have hnot : w.writtenAt recs signal t = false := by
        rw [← Waveform.pendingAt_isSome htyped hvalid, hpending]
        rfl
      rw [if_pos (Waveform.valueAt_quiet hvalid hnot)]
    | some v =>
      have hv := (Waveform.pendingAt_eq hpending).2
      have howned := Waveform.valueAt_owned htyped hvalid hv
      have hchanged : (w.viewSlot recs t signal).changed =
          !decide (w.enteringAt recs signal t = some v) := by
        show ((w.pendingAt recs t signal).any fun value =>
          !((stateOf (w.enteredAt recs signal t)).any fun state => state.value.sameValue value)) = _
        rw [hpending, Option.any_some]
        congr 1
        rw [← stateOf_entered]
        cases hstate : stateOf (w.enteredAt recs signal t) with
        | none => rfl
        | some state =>
          have hentering := stateOf_entered w recs t signal
          rw [hstate] at hentering
          rw [Option.any_some, Value.sameValue_owned
            (Waveform.enteringAt_owned htyped hvalid hentering.symm) howned]
          simp
      simp only [hchanged, hv]
      by_cases heq : w.enteringAt recs signal t = some v
      · simp [heq]
      · simp [heq, Ne.symm heq, hstart]
  · show (if start ≤ t ∧ 0 < countAt recs signal t then _ else _) = _
    simp only [hstart, true_and]
    rfl

/-- The records of a visited tick. -/
theorem changes_view (hplans : plan.Plans w signals) (htyped : Typed w recs)
    (hsignals : ∀ s ∈ signals, w.Valid s) {start t : Nat} (hstart : start ≤ t) :
    changes signals plan.indices start t (plan.retained.map (w.viewSlot recs t)) =
      signals.zipIdx.flatMap fun entry =>
        (w.changesAt recs t entry.1).map fun record => (entry.2, record) := by
  unfold changes
  rw [entrySlots_map hplans, List.flatMap_map]
  refine List.flatMap_congr fun entry hentry => ?_
  dsimp only
  rw [slotChanges_view htyped (hsignals _ (List.fst_mem_of_mem_zipIdx hentry)) hstart]

/-- The initials from slots with the entering states. -/
theorem initials_entered (hplans : plan.Plans w signals) {start : Nat} {f : Signal → Slot}
    (hf : ∀ s, (f s).state = stateOf (w.enteredAt recs s start)) :
    initials signals plan.indices (plan.retained.map f) =
      signals.zipIdx.filterMap fun entry =>
        (w.initialAt recs start entry.1).map fun record => (entry.2, record) := by
  unfold initials
  rw [entrySlots_map hplans, List.filterMap_map]
  refine List.filterMap_congr fun entry _ => ?_
  simp only [Function.comp, hf, Waveform.initialAt, stateOf, Option.map_map]
  rfl

/-- The slot of a selection entry. -/
theorem Plan.Plans.slot (h : plan.Plans w signals) {i : Nat} {s : Signal}
    (hi : signals[i]? = some s) :
    ∃ slot, plan.indices[i]? = some slot ∧ plan.retained[slot]? = some s := by
  have hentry := congrArg (fun entries => entries[i]?) h.indices
  simp only [List.getElem?_map, hi, Option.map_some] at hentry
  obtain ⟨slot, hslot, hretained⟩ := Option.map_eq_some_iff.1 hentry
  exact ⟨slot, hslot, hretained⟩

/-- The handles of a selection are valid. -/
theorem Plan.Plans.valid_signals (h : plan.Plans w signals) : ∀ s ∈ signals, w.Valid s := by
  intro s hs
  have hmem : some s ∈ plan.indices.map fun slot => plan.retained[slot]? := by
    rw [h.indices]
    exact List.mem_map_of_mem hs
  obtain ⟨slot, -, hslot⟩ := List.mem_map.1 hmem
  exact h.valid s (List.mem_of_getElem? hslot)

end
/-! ## Scans -/

section
variable {σ B : Type} {visitor : ScanVisitor σ B} {signals : List Signal} {indices : List Nat}
  {start : Nat}

/-- After the initials a scan visits the records of its ticks. -/
theorem sweep_scanTick (c : σ) (xs : List (Nat × List Slot)) :
    sweep (scanTick signals indices start visitor) (true, c) xs =
      ((true, (visit visitor c (xs.flatMap fun x => changes signals indices start x.1 x.2)).1),
        .ok (visit visitor c (xs.flatMap fun x => changes signals indices start x.1 x.2)).2) := by
  induction xs generalizing c with
  | nil => rfl
  | cons x xs ih =>
    obtain ⟨t, slots⟩ := x
    rw [List.flatMap_cons, visit_append]
    simp only [sweep, scanTick, Bool.not_true, Bool.false_and, Bool.false_eq_true, if_false]
    rcases visit visitor c (changes signals indices start t slots) with ⟨d, _ | b⟩
    · exact ih d
    · rfl

variable (visitor signals indices) in
/-- The first tick of a scan also emits the initials. -/
theorem sweep_scanTick_first (c : σ) {t : Nat} (ht : start ≤ t) (slots : List Slot)
    (xs : List (Nat × List Slot)) :
    sweep (scanTick signals indices start visitor) (false, c) ((t, slots) :: xs) =
      ((true, (visit visitor c (initials signals indices slots ++
          ((t, slots) :: xs).flatMap fun x => changes signals indices start x.1 x.2)).1),
        .ok (visit visitor c (initials signals indices slots ++
          ((t, slots) :: xs).flatMap fun x => changes signals indices start x.1 x.2)).2) := by
  rw [visit_append, List.flatMap_cons]
  simp only [sweep, scanTick, Bool.not_false, Bool.true_and, ht, decide_true, if_true]
  rcases visit visitor c (initials signals indices slots) with ⟨d, _ | b⟩
  · dsimp only
    rw [visit_append]
    rcases visit visitor d (changes signals indices start t slots) with ⟨d', _ | b⟩
    · exact sweep_scanTick d' xs
    · rfl
  · rfl

end

section
variable {σ B : Type} {whole : List Record} {stored : Position → List Record → Prop}
  {sizes : Sizes} {src : Source} {c c' : σ} {sel : Selection}

/-- The window of a scan holds no tick. -/
def Selection.idleScan (sel : Selection) (range : TimeRange) : Bool :=
  range.isEmpty || decide (sel.waveform.scanEnd range < range.start) || sel.signals.isEmpty

/-- The records a scan of a stream emits. -/
def Selection.emissions (sel : Selection) (whole : List Record) (range : TimeRange) :
    List (Nat × ScanRef) :=
  if sel.idleScan range then []
  else sel.waveform.emissions whole sel.signals range.start (sel.waveform.scanEnd range)

/-- The first published tick has the state that enters the window. -/
theorem enteredAt_first {w : Waveform} {recs : List Record} {start stop t : Nat} {ticks : List Nat}
    (hsorted : Chronological recs)
    (hticks : published (upTo stop recs) (some start) = t :: ticks) (signal : Signal) :
    w.enteredAt recs signal t = w.enteredAt recs signal start := by
  have hmem : t ∈ published (upTo stop recs) (some start) := by rw [hticks]; simp
  obtain ⟨⟨first, hfirst, hfirsttime⟩, hstart⟩ := mem_published.1 hmem
  refine Waveform.enteredAt_quiet (hstart start rfl) fun r hr => ?_
  by_contra hnot
  have hle : r.time ≤ stop := by have := upTo_le first hfirst; omega
  have hin : r ∈ upTo stop recs := by
    rw [← upTo_append_past stop recs] at hr
    rcases List.mem_append.1 hr with hr | hr
    · exact hr
    · have := past_gt hsorted r hr
      omega
  have hincreasing := published_increasing
    (hsorted.sublist (List.takeWhile_sublist fun r : Record => decide (r.time ≤ stop))) (some start)
  rw [show recs.takeWhile _ = upTo stop recs from rfl, hticks] at hincreasing
  have hrmem : r.time ∈ t :: ticks := hticks ▸ mem_published.2
    ⟨⟨r, hin, rfl⟩, fun s hs => by cases hs; omega⟩
  rcases List.mem_cons.1 hrmem with heq | hlater
  · omega
  · have := (List.pairwise_cons.1 hincreasing).1 _ hlater
    omega

/-- With no tick in the window the state that enters it is the state at its end. -/
theorem enteredAt_none {w : Waveform} {recs : List Record} {start stop : Nat}
    (hsorted : Chronological recs) (hstop : start ≤ stop)
    (hticks : published (upTo stop recs) (some start) = []) (signal : Signal) :
    w.committedAt recs signal stop = w.enteredAt recs signal start := by
  rw [← Waveform.enteredAt_succ]
  refine Waveform.enteredAt_quiet (by omega) fun r hr => ?_
  by_contra hnot
  have hin : r ∈ upTo stop recs := by
    rw [← upTo_append_past stop recs] at hr
    rcases List.mem_append.1 hr with hr | hr
    · exact hr
    · have := past_gt hsorted r hr
      omega
  have hmem : r.time ∈ published (upTo stop recs) (some start) := mem_published.2
    ⟨⟨r, hin, rfl⟩, fun s hs => by cases hs; omega⟩
  rw [hticks] at hmem
  cases hmem

/-- A scan whose visitor goes on goes on. -/
theorem scanTick_goes {visitor : ScanVisitor σ B} {signals : List Signal} {indices : List Nat}
    {start : Nat} (h : ∀ c record, (visitor c record).2 = .continue) :
    Goes (scanTick signals indices start visitor) := by
  have hvisit : ∀ c records, (visit visitor c records).2 = .continue := by
    intro c records
    induction records generalizing c with
    | nil => rfl
    | cons record records ih =>
      have hrecord := h c record
      rw [visit]
      rcases hx : visitor c record with ⟨d, flow⟩
      rw [hx] at hrecord
      dsimp only at hrecord
      subst hrecord
      exact ih d
  rintro ⟨emitted, c⟩ t slots
  unfold scanTick
  dsimp only
  split
  · have hinitials := hvisit c (initials signals indices slots)
    rcases hx : visit visitor c (initials signals indices slots) with ⟨d, flow⟩
    rw [hx] at hinitials
    dsimp only at hinitials
    subst hinitials
    exact congrArg Except.ok (hvisit d _)
  · exact congrArg Except.ok (hvisit c _)

/-- A traversal that does not end well ends its scan. -/
theorem scanEach_stops {visitor : ScanVisitor σ B} {range : TimeRange} {sel₁ : Selection}
    {slots : List Slot} {d : Bool × σ} {outcome : Except Error (ControlFlow B)}
    (hidle : ¬ sel.idleScan range = true)
    (hread : sel.readTicksFrom sizes src (some range.start) (sel.waveform.scanEnd range)
      (scanTick sel.signals sel.plan.indices range.start visitor) (false, c) =
        (sel₁, slots, d, outcome))
    (hstop : outcome ≠ .ok .continue) :
    sel.scanEach sizes src range visitor c = (sel₁, d.2, outcome) := by
  unfold Selection.idleScan at hidle
  unfold Selection.scanEach
  rw [if_neg hidle, hread]
  rcases outcome with e | _ | b
  · rfl
  · exact absurd rfl hstop
  · rfl

/-- A traversal that emitted the initials ends its scan. -/
theorem scanEach_emitted {visitor : ScanVisitor σ B} {range : TimeRange} {sel₁ : Selection}
    {slots : List Slot} {d : σ} {outcome : Except Error (ControlFlow B)}
    (hidle : ¬ sel.idleScan range = true)
    (hread : sel.readTicksFrom sizes src (some range.start) (sel.waveform.scanEnd range)
      (scanTick sel.signals sel.plan.indices range.start visitor) (false, c) =
        (sel₁, slots, (true, d), outcome)) :
    sel.scanEach sizes src range visitor c = (sel₁, d, outcome) := by
  by_cases hout : outcome = .ok .continue
  · subst hout
    unfold Selection.idleScan at hidle
    unfold Selection.scanEach
    rw [if_neg hidle, hread]
    rfl
  · exact scanEach_stops hidle hread hout

/-- A traversal without a tick leaves the initials to be emitted. -/
theorem scanEach_quiet {visitor : ScanVisitor σ B} {range : TimeRange} {sel₁ : Selection}
    {slots : List Slot} {d : σ} {flow : ControlFlow B} (hidle : ¬ sel.idleScan range = true)
    (hread : sel.readTicksFrom sizes src (some range.start) (sel.waveform.scanEnd range)
      (scanTick sel.signals sel.plan.indices range.start visitor) (false, c) =
        (sel₁, slots, (false, d), .ok .continue))
    (hvisit : visit visitor d (initials sel₁.signals sel₁.plan.indices slots) = (c', flow)) :
    ∃ sel', sel.scanEach sizes src range visitor c = (sel', c', .ok flow) ∧
      (flow = .continue → sel' = sel₁) ∧ (flow ≠ .continue → sel' = sel₁.cleared) := by
  unfold Selection.idleScan at hidle
  unfold Selection.scanEach
  rw [if_neg hidle, hread]
  dsimp only
  rw [if_neg Bool.false_ne_true, hvisit]
  cases flow with
  | «continue» => exact ⟨sel₁, rfl, fun _ => rfl, fun h => absurd rfl h⟩
  | «break» b => exact ⟨sel₁.cleared, rfl, nofun, fun _ => rfl⟩

/-- A scan of a stream hands its visitor the emissions of the window, until it breaks, or its read
fails. -/
theorem scanEach_read {visitor : ScanVisitor σ B} {flow : ControlFlow B} {range : TimeRange}
    (htries : src.Tries sel.waveform sel.plan whole stored) (hsound : sel.Sound whole stored)
    (hvisit : visit visitor c (sel.emissions whole range) = (c', flow)) :
    (∃ sel', sel.scanEach sizes src range visitor c = (sel', c', .ok flow) ∧
      sel'.Sound whole stored ∧ sel'.cleared = sel.cleared ∧
      (flow ≠ .continue → sel' = sel.cleared)) ∨
    (src.Reads sel.waveform sel.plan whole stored → ¬ Counted whole) ∧
      ∃ c'' outcome, sel.scanEach sizes src range visitor c =
        (sel.cleared, c'', outcome) ∧ outcome ≠ .ok .continue ∧
        ((∀ c record, (visitor c record).2 = .continue) → ∃ e, outcome = .error e) := by
  unfold Selection.emissions at hvisit
  by_cases hidle : sel.idleScan range = true
  · rw [if_pos hidle] at hvisit
    cases hvisit
    refine .inl ⟨sel, ?_, hsound, rfl, fun h => absurd rfl h⟩
    unfold Selection.idleScan at hidle
    simp only [Selection.scanEach, hidle, if_true]
  · rw [if_neg hidle] at hvisit
    have hcond := hidle
    unfold Selection.idleScan at hcond
    have hstop : range.start ≤ sel.waveform.scanEnd range := by
      by_contra hlt
      exact hcond (by simp [Nat.not_le.1 hlt])
    have hstops := @scanEach_stops σ B sizes src c sel visitor range
    have hemitted := @scanEach_emitted σ B sizes src c sel visitor range
    have hquiet := @scanEach_quiet σ B sizes src c c' sel visitor range
    generalize hscanEnd : sel.waveform.scanEnd range = stop at *
    have hsignals := hsound.plans.valid_signals
    have hsorted := htries.chronological
    unfold Waveform.emissions at hvisit
    cases hticks : published (upTo stop whole) (some range.start) with
    | nil =>
      rw [hticks, List.flatMap_nil, List.append_nil] at hvisit
      have hnone : sweep (scanTick sel.signals sel.plan.indices range.start visitor) (false, c)
          (views sel.waveform sel.plan whole (published (upTo stop whole) (some range.start))) =
          ((false, c), .ok .continue) := by rw [hticks]; rfl
      obtain ⟨sel', slots, hread, hsound', hcleared, hslots, -⟩ |
          ⟨hcounted, slots, d, outcome', hread, hne, hfails⟩ :=
          readTicksFrom_read htries hsound hnone
      swap
      · exact .inr ⟨hcounted, d.2, outcome', hstops hidle hread hne, hne,
          fun h => hfails (scanTick_goes h)⟩
      have hinitials := initials_entered (f := sel.waveform.heldSlot whole stop) hsound.plans
        (fun s => congrArg stateOf (enteredAt_none hsorted hstop hticks s))
      have hplans : sel'.signals = sel.signals ∧ sel'.plan = sel.plan := by
        have h := congrArg Selection.signals hcleared
        have h' := congrArg Selection.plan hcleared
        exact ⟨h, h'⟩
      obtain ⟨sel'', hscan, hgoes, hbreaks⟩ := hquiet hidle hread
        (by rw [hplans.1, hplans.2, hslots rfl, hinitials, hvisit])
      refine .inl ⟨sel'', hscan, ?_⟩
      cases flow with
      | «continue» =>
        rw [hgoes rfl]
        exact ⟨hsound', hcleared, fun h => absurd rfl h⟩
      | «break» b =>
        rw [hbreaks nofun]
        exact ⟨⟨hsound'.plans, nofun, nofun⟩, hcleared, fun _ => hcleared⟩
    | cons t ticks =>
      have hwindow : ∀ τ ∈ t :: ticks, range.start ≤ τ := fun τ hτ =>
        (mem_published.1 (hticks ▸ hτ)).2 range.start rfl
      have hinitials := initials_entered (f := sel.waveform.viewSlot whole t) hsound.plans
        (fun s => congrArg stateOf (enteredAt_first hsorted hticks s))
      have hchanges : (views sel.waveform sel.plan whole (t :: ticks)).flatMap
          (fun x => changes sel.signals sel.plan.indices range.start x.1 x.2) =
          (t :: ticks).flatMap fun τ => sel.signals.zipIdx.flatMap fun entry =>
            (sel.waveform.changesAt whole τ entry.1).map fun record => (entry.2, record) := by
        rw [views, List.flatMap_map]
        exact List.flatMap_congr fun τ hτ =>
          changes_view hsound.plans htries.typed hsignals (hwindow τ hτ)
      have hsweep := sweep_scanTick_first visitor sel.signals sel.plan.indices c
        (hwindow t (by simp))
        (sel.plan.retained.map (sel.waveform.viewSlot whole t))
        (views sel.waveform sel.plan whole ticks)
      have hcons : (t, sel.plan.retained.map (sel.waveform.viewSlot whole t)) ::
          views sel.waveform sel.plan whole ticks = views sel.waveform sel.plan whole
          (t :: ticks) :=
        rfl
      rw [hcons, hinitials, hchanges, ← hticks, hvisit] at hsweep
      obtain ⟨sel', slots, hread, hsound', hcleared, -, hbreak⟩ |
          ⟨hcounted, slots, d, outcome', hread, hne, hfails⟩ := readTicksFrom_read
        htries hsound hsweep
      · refine .inl ⟨sel', hemitted hidle hread, hsound', hcleared, fun hflow => hbreak fun h => ?_⟩
        injection h with h
        exact hflow h
      · exact .inr ⟨hcounted, d.2, outcome', hstops hidle hread hne, hne,
          fun h => hfails (scanTick_goes h)⟩

/-- A scan of a served stream hands its visitor the emissions of the window, until it breaks. -/
theorem scanEach_served {visitor : ScanVisitor σ B} {flow : ControlFlow B} {range : TimeRange}
    (hserves : src.Serves sel.waveform sel.plan whole stored) (hsound : sel.Sound whole stored)
    (hvisit : visit visitor c (sel.emissions whole range) = (c', flow)) :
    ∃ sel', sel.scanEach sizes src range visitor c = (sel', c', .ok flow) ∧
      sel'.Sound whole stored ∧ sel'.cleared = sel.cleared ∧
      (flow ≠ .continue → sel' = sel.cleared) :=
  (scanEach_read hserves.toReads.tries hsound hvisit).resolve_right fun h =>
    h.1 hserves.toReads hserves.counts

/-- A scan that completes has handed its visitor the emissions of the window. -/
theorem scanEach_completed {visitor : ScanVisitor σ B} {range : TimeRange} {sel' : Selection}
    (htries : src.Tries sel.waveform sel.plan whole stored) (hsound : sel.Sound whole stored)
    (h : sel.scanEach sizes src range visitor c = (sel', c', .ok .continue)) :
    visit visitor c (sel.emissions whole range) = (c', .continue) := by
  rcases hvisit : visit visitor c (sel.emissions whole range) with ⟨d, flow⟩
  rcases scanEach_read htries hsound hvisit with
    ⟨sel'', hscan, -⟩ | ⟨-, d', outcome, hscan, hne, -⟩
  · rw [hscan] at h
    cases h
    rfl
  · rw [hscan] at h
    cases h
    exact absurd rfl hne

end
/-! ## One entry of a scan -/

/-- The records of one entry. -/
def recordsOf (i : Nat) (records : List (Nat × ScanRef)) : List ScanRef :=
  records.filterMap fun record => if record.1 = i then some record.2 else none

theorem recordsOf_append (i : Nat) (xs ys : List (Nat × ScanRef)) :
    recordsOf i (xs ++ ys) = recordsOf i xs ++ recordsOf i ys :=
  List.filterMap_append

/-- The records of an entry are collected tick by tick. -/
theorem recordsOf_flatMap {α : Type*} (i : Nat) (xs : List α) (f : α → List (Nat × ScanRef)) :
    recordsOf i (xs.flatMap f) = xs.flatMap fun x => recordsOf i (f x) := by
  induction xs with
  | nil => rfl
  | cons x xs ih => rw [List.flatMap_cons, recordsOf_append, ih, List.flatMap_cons]

/-- The records of an entry among those of every entry. -/
theorem recordsOf_zipIdx {signals : List Signal} {i : Nat} {s : Signal} (h : signals[i]? = some s)
    (f : Signal → List ScanRef) :
    recordsOf i (signals.zipIdx.flatMap fun entry => (f entry.1).map fun record =>
      (entry.2, record)) = f s := by
  have hone : ∀ (j : Nat) (records : List ScanRef), recordsOf i (records.map fun record =>
      (j, record)) = if j = i then records else [] := by
    intro j records
    unfold recordsOf
    rw [List.filterMap_map]
    by_cases hj : j = i <;> simp [hj]
  -- The entries from a position on: the wanted one, if it is among them.
  have hall : ∀ (l : List Signal) (k : Nat), recordsOf i ((l.zipIdx k).flatMap fun entry =>
      (f entry.1).map fun record => (entry.2, record)) =
        if k ≤ i then ((l[i - k]?).map f).getD [] else [] := by
    intro l
    induction l with
    | nil => intro k; simp [recordsOf]
    | cons a l ih =>
      intro k
      rw [List.zipIdx_cons, List.flatMap_cons, recordsOf_append, ih, hone]
      by_cases hk : k = i
      · subst hk
        simp
      · by_cases hlt : k ≤ i
        · rw [if_neg hk, if_pos (by omega), if_pos hlt, List.nil_append,
            show i - k = (i - (k + 1)) + 1 by omega, List.getElem?_cons_succ]
        · rw [if_neg hk, if_neg (by omega), if_neg hlt, List.nil_append]
  rw [hall signals 0, if_pos (Nat.zero_le i), Nat.sub_zero, h]
  rfl

/-- The emissions of an entry: its entering state, and its records tick by tick. -/
theorem recordsOf_emissions {w : Waveform} {recs : List Record} {signals : List Signal} {i : Nat}
    {s : Signal} (h : signals[i]? = some s) (start stop : Nat) :
    recordsOf i (w.emissions recs signals start stop) = (w.initialAt recs start s).toList ++
      (published (upTo stop recs) (some start)).flatMap fun t => w.changesAt recs t s := by
  have hinitials : signals.zipIdx.filterMap (fun entry =>
      (w.initialAt recs start entry.1).map fun record => (entry.2, record)) =
      signals.zipIdx.flatMap fun entry =>
        (w.initialAt recs start entry.1).toList.map fun record => (entry.2, record) := by
    rw [List.filterMap_eq_flatMap_toList]
    exact List.flatMap_congr fun entry _ => by rw [Option.toList_map]
  rw [Waveform.emissions, recordsOf_append, hinitials,
    recordsOf_zipIdx h fun s => (w.initialAt recs start s).toList, recordsOf_flatMap]
  congr 1
  exact List.flatMap_congr fun t _ => recordsOf_zipIdx h (w.changesAt recs t)

/-! ## The observation of a handle -/

section
variable {w : Waveform} {recs : List Record} {signal : Signal} {t : Nat}

/-- Only events count. -/
theorem countAt_persistent (htyped : Typed w recs) (hvalid : w.Valid signal)
    (h : signal.encoding ≠ .event) : countAt recs signal t = 0 := by
  unfold countAt
  split
  · rfl
  · next hc =>
    rw [Bool.not_eq_true] at hc
    rw [eventsAt, List.sum_eq_zero_iff_forall_eq_nat]
    intro n hn
    obtain ⟨r, hr, rfl⟩ := List.mem_map.1 hn
    obtain ⟨hmem, hbase⟩ := List.mem_filter.1 hr
    have hbase : r.base = signal.index := (of_decide_eq_true hbase).1
    obtain ⟨e, he, hfits⟩ := htyped r hmem
    rw [hbase, hvalid.encoding hc, Option.some.injEq] at he
    subst he
    have hnot : signal.baseEncoding ≠ .event := fun heq => h (hvalid.event.2 heq)
    unfold Record.occurrences
    cases hvalue : r.value with
    | event occurrences =>
      rw [hvalue] at hfits
      cases hencoding : signal.baseEncoding with
      | event => exact absurd hencoding hnot
      | bits | real | string | unsupported => rw [hencoding] at hfits; cases hfits
    | bits | real | string => rfl

/-- Events have no value. -/
theorem value_event {source : Nat → Option Value} (htyped : TypedSource w source)
    (hvalid : w.Valid signal) (hevent : signal.encoding = .event) :
    w.value source signal = none := by
  cases hc : signal.computed with
  | true =>
    have hbits : ∃ width, signal.baseEncoding = .bits width := by
      have hencoding := (validateEncoding_ok hvalid).2.2.1
      simp only [encodingOf, hc, if_true, Option.map_eq_some_iff] at hencoding
      obtain ⟨d, -, hd⟩ := hencoding
      exact ⟨d.width, hd.symm⟩
    obtain ⟨width, hwidth⟩ := hvalid.bits.2 hbits
    rw [hevent] at hwidth
    cases hwidth
  | false =>
    rw [Waveform.value_source hc, Option.map_eq_none_iff, Option.eq_none_iff_forall_ne_some]
    intro v hv
    obtain ⟨-, hnot, e, he, hfits⟩ := htyped _ v hv
    rw [hvalid.encoding hc, hvalid.event.1 hevent, Option.some.injEq] at he
    subst he
    cases v with
    | event occurrences => cases hnot
    | bits | real | string => cases hfits

/-- A tick whose value is the one that entered leaves the state that entered. -/
theorem committedAt_same (h : w.valueAt recs signal t = w.enteringAt recs signal t) :
    w.committedAt recs signal t = w.enteredAt recs signal t :=
  committed_quiet h

/-- A tick whose value is not the one that entered settles that value. -/
theorem committedAt_changed (hsorted : Chronological recs) (htyped : Typed w recs)
    (hvalid : w.Valid signal) (h : w.valueAt recs signal t ≠ w.enteringAt recs signal t) :
    ∃ v, w.valueAt recs signal t = some v ∧
      w.committedAt recs signal t = settle t v (w.enteredAt recs signal t) := by
  have hwritten : w.writtenAt recs signal t = true := by
    by_contra hnot
    exact h (Waveform.valueAt_quiet hvalid (by simpa using hnot))
  obtain ⟨v, hv⟩ := Waveform.valueAt_written htyped hvalid hwritten
  refine ⟨v, hv, ?_⟩
  rw [Waveform.committedAt_eq hsorted htyped hvalid, hwritten, hv]
  rfl

/-- While no tick brings another value the state stays. -/
theorem committedAt_steady {start : Nat} (hle : start ≤ t)
    (h : ∀ τ, start ≤ τ → τ ≤ t → w.valueAt recs signal τ = w.enteringAt recs signal τ) :
    w.committedAt recs signal t = w.enteredAt recs signal start := by
  induction t with
  | zero =>
    have hzero : start = 0 := by omega
    subst hzero
    exact committedAt_same (h 0 (Nat.le_refl _) (Nat.le_refl _))
  | succ t ih =>
    rw [committedAt_same (h (t + 1) hle (Nat.le_refl _))]
    by_cases heq : start = t + 1
    · rw [heq]
    · rw [Waveform.enteredAt_succ]
      exact ih (by omega) fun τ hτ hτ' => h τ hτ (by omega)

/-- A tick that is not recorded brings no value. -/
theorem valueAt_unrecorded (hvalid : w.Valid signal) (h : ∀ r ∈ recs, r.time ≠ t) :
    w.valueAt recs signal t = w.enteringAt recs signal t := by
  refine Waveform.valueAt_quiet hvalid ?_
  by_contra hwritten
  obtain ⟨r, hr, heq⟩ := List.mem_map.1
    (Waveform.writtenAt_recorded hvalid (by simpa using hwritten))
  exact h r hr heq

/-- A tick that is not recorded counts nothing. -/
theorem countAt_unrecorded (h : ∀ r ∈ recs, r.time ≠ t) : countAt recs signal t = 0 := by
  unfold countAt
  split
  · rfl
  · exact eventsAt_none h

/-- A tick that is not recorded emits nothing. -/
theorem changesAt_unrecorded (hvalid : w.Valid signal) (h : ∀ r ∈ recs, r.time ≠ t) :
    w.changesAt recs t signal = [] := by
  rw [Waveform.changesAt, if_pos (valueAt_unrecorded hvalid h), countAt_unrecorded h]
  rfl

/-- The records of a persistent handle at a tick. -/
theorem changesAt_persistent (htyped : Typed w recs) (hvalid : w.Valid signal)
    (h : signal.encoding ≠ .event) : w.changesAt recs t signal =
      if w.valueAt recs signal t = w.enteringAt recs signal t then []
      else (w.valueAt recs signal t).toList.map (.change signal t) := by
  rw [Waveform.changesAt, countAt_persistent htyped hvalid h, if_neg (Nat.lt_irrefl 0),
    List.append_nil]

/-- The records of an event handle at a tick. -/
theorem changesAt_event (htyped : Typed w recs) (hvalid : w.Valid signal)
    (h : signal.encoding = .event) : w.changesAt recs t signal =
      if 0 < countAt recs signal t then [.change signal t (.event (countAt recs signal t))]
      else [] := by
  have hnone : w.valueAt recs signal t = none := value_event (htyped.valueAt t) hvalid h
  have hnone' : w.enteringAt recs signal t = none := value_event (htyped.enteringAt t) hvalid h
  rw [Waveform.changesAt, hnone, hnone', if_pos rfl, List.nil_append]

end

/-! ## Points -/

section
variable {w : Waveform} {recs : List Record} {signal : Signal} {t : Nat}

/-- Updating with a value settles it. -/
theorem update_settle {v : Value} (hv : v.toOwned = v) (time : Nat)
    (entry : Option (Value × Option Nat)) (hentry : ∀ e, entry = some e → e.1.toOwned = e.1) :
    update (stateOf entry) v time = stateOf (settle time v entry) := by
  cases entry with
  | none => rfl
  | some e =>
    have he := hentry e rfl
    obtain ⟨u, changed⟩ := e
    simp only [update, stateOf, Option.map_some, Option.any_some, settle,
      Value.sameValue_owned he hv]
    by_cases huv : u = v <;> simp [huv]

/-- The state that enters a tick is owned. -/
theorem enteredAt_owned (htyped : Typed w recs) (hvalid : w.Valid signal) {e : Value × Option Nat}
    (h : w.enteredAt recs signal t = some e) : e.1.toOwned = e.1 := by
  have hentering := stateOf_entered w recs t signal
  rw [h] at hentering
  exact Waveform.enteringAt_owned htyped hvalid hentering.symm

/-- The records of a point leave the state of its tick. -/
theorem foldl_pointState (hsorted : Chronological recs) (htyped : Typed w recs)
    (hvalid : w.Valid signal) (hpersistent : signal.encoding ≠ .event) :
    ((w.initialAt recs t signal).toList ++ w.changesAt recs t signal).foldl pointState none =
      stateOf (w.committedAt recs signal t) := by
  have hinitial : (w.initialAt recs t signal).toList.foldl pointState none =
      stateOf (w.enteredAt recs signal t) := by
    unfold Waveform.initialAt
    cases hentered : w.enteredAt recs signal t with
    | none => rfl
    | some e =>
      simp only [Option.map_some, Option.toList_some, List.foldl_cons, List.foldl_nil, pointState,
        enteredAt_owned htyped hvalid hentered, stateOf]
  rw [List.foldl_append, hinitial, changesAt_persistent htyped hvalid hpersistent]
  split
  · next hsame => rw [committedAt_same hsame]; rfl
  · next hchanged =>
    obtain ⟨v, hv, hcommitted⟩ := committedAt_changed hsorted htyped hvalid hchanged
    obtain ⟨howned, hevent⟩ := Waveform.value_owned (htyped.valueAt t) hvalid hv
    rw [hv, hcommitted, ← update_settle howned t _ fun e he => enteredAt_owned htyped hvalid he]
    cases v with
    | event occurrences => cases hevent
    | bits | real | string =>
      simp only [Option.toList_some, List.map_cons, List.map_nil, List.foldl_cons, List.foldl_nil,
        pointState, howned]

/-- The records of a point count the events of its tick. -/
theorem foldl_pointEvents (htyped : Typed w recs) (hvalid : w.Valid signal)
    (hevent : signal.encoding = .event) :
    ((w.initialAt recs t signal).toList ++ w.changesAt recs t signal).foldl pointEvents 0 =
      countAt recs signal t := by
  have hinitial : (w.initialAt recs t signal).toList.foldl pointEvents 0 = 0 := by
    unfold Waveform.initialAt
    cases w.enteredAt recs signal t <;> rfl
  rw [List.foldl_append, hinitial, changesAt_event htyped hvalid hevent]
  split
  · rfl
  · next hzero => exact (Nat.le_zero.1 (Nat.not_lt.1 hzero)).symm

/-- The records of a point are the sample of its tick. -/
theorem pointSample_eq (hsorted : Chronological recs) (htyped : Typed w recs)
    (hvalid : w.Valid signal) {records : List ScanRef}
    (hrecords : records = (w.initialAt recs t signal).toList ++ w.changesAt recs t signal) :
    pointSample signal (records.foldl pointState none) (records.foldl pointEvents 0) =
      w.sampleAt recs t signal := by
  subst hrecords
  unfold pointSample Waveform.sampleAt
  split
  · next hevent => rw [foldl_pointEvents htyped hvalid hevent]
  · next hpersistent =>
    rw [foldl_pointState hsorted htyped hvalid hpersistent]
    cases w.committedAt recs signal t with
    | none => rfl
    | some entry => rfl

end
end Ondas.Query
