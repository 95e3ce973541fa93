import Ondas.Query.Points

/-!
# Many ticks in one traversal

`samplesAt` reads every requested tick in one traversal from the start: at a recorded tick it fills
the rows that are due, from the slots before the tick is committed, and after the end the rows that
are left. Each row is the samples of its tick (`samplesAt_served`). The loop invariant is
`rowsDone`: the rows of the part of the schedule already met.
-/

namespace Ondas.Query

open Library
open Vcd (Position)

/-! ## Slots as observations -/

section
variable {w : Waveform} {recs : List Record} {signal : Signal} {s t : Nat}

/-- A visited slot at its own tick is the sample of the tick. -/
theorem sample_view (hsorted : Chronological recs) (htyped : Typed w recs)
    (hvalid : w.Valid signal) :
    (w.viewSlot recs t signal).sample signal (some t) = w.sampleAt recs t signal := by
  unfold Slot.sample Waveform.sampleAt
  by_cases hevent : signal.encoding = .event
  · rw [if_pos hevent, if_pos hevent]
    rfl
  · rw [if_neg hevent, if_neg hevent]
    have hcommit := commit_state (t := t) hsorted htyped hvalid
    have hentered := stateOf_entered w recs t signal
    have hstate : (w.viewSlot recs t signal).state = stateOf (w.enteredAt recs signal t) := rfl
    have hpending : (w.viewSlot recs t signal).pending = w.pendingAt recs t signal := rfl
    have hchanged : (w.viewSlot recs t signal).changed = (w.pendingAt recs t signal).any
        fun value =>
      !((stateOf (w.enteredAt recs signal t)).any fun state => state.value.sameValue value) := rfl
    rw [Slot.commit, hpending, hstate, hchanged] at hcommit
    rw [hpending, hstate, hchanged]
    cases hp : w.pendingAt recs t signal with
    | none =>
      rw [hp] at hcommit
      dsimp only at hcommit
      rw [hcommit]
      cases w.committedAt recs signal t <;> rfl
    | some v =>
      rw [hp] at hcommit
      have howned := Waveform.valueAt_owned htyped hvalid (Waveform.pendingAt_eq hp).2
      simp only [Option.any_some, Option.bind_some, Option.some_or] at hcommit ⊢
      cases hst : stateOf (w.enteredAt recs signal t) with
      | none =>
        rw [hst] at hcommit
        cases hc : w.committedAt recs signal t with
        | none => rw [hc] at hcommit; cases hcommit
        | some entry =>
          obtain ⟨u, changed⟩ := entry
          rw [hc] at hcommit
          cases hcommit
          rfl
      | some state =>
        rw [hst] at hcommit hentered
        have howned' := Waveform.enteringAt_owned htyped hvalid hentered.symm
        simp only [Option.any_some, Value.sameValue_owned howned' howned, Option.bind_some,
          Option.map_some] at hcommit ⊢
        cases hc : w.committedAt recs signal t with
        | none =>
          rw [hc] at hcommit; by_cases hv : state.value = v <;> simp [hv, stateOf] at hcommit
        | some entry =>
          obtain ⟨u, changed⟩ := entry
          rw [hc] at hcommit
          by_cases hv : state.value = v
          · simp only [hv, decide_true, Bool.not_true, Bool.false_eq_true, if_false] at hcommit ⊢
            cases hcommit
            rw [← hv]
          · simp only [hv, decide_false, Bool.not_false, if_true] at hcommit ⊢
            cases hcommit
            simp

/-- A visited slot of a quiet tick before it is the sample of that tick. -/
theorem sample_view_before (hvalid : w.Valid signal) (hst : s < t)
    (hquiet : ∀ r ∈ recs, r.time < s ∨ t ≤ r.time) :
    (w.viewSlot recs t signal).sample signal none = w.sampleAt recs s signal := by
  have hunrecorded : ∀ r ∈ recs, r.time ≠ s := fun r hr => by have := hquiet r hr; omega
  unfold Slot.sample Waveform.sampleAt
  rw [countAt_unrecorded hunrecorded, committedAt_same (valueAt_unrecorded hvalid hunrecorded),
    ← Waveform.enteredAt_quiet hst.le hquiet]
  split
  · rfl
  · have hstate : (w.viewSlot recs t signal).state = stateOf (w.enteredAt recs signal t) := rfl
    rw [hstate]
    cases w.enteredAt recs signal t with
    | none => rfl
    | some entry => simp [stateOf]

/-- A slot held past the last record is the sample of a tick there. -/
theorem sample_held (hst : s ≤ t)
    (hquiet : ∀ r ∈ recs, r.time < s ∨ t < r.time) :
    (w.heldSlot recs t signal).sample signal none = w.sampleAt recs s signal := by
  have hunrecorded : ∀ r ∈ recs, r.time ≠ s := fun r hr => by have := hquiet r hr; omega
  unfold Slot.sample Waveform.sampleAt
  rw [countAt_unrecorded hunrecorded]
  have hstate : (w.heldSlot recs t signal).state = stateOf (w.committedAt recs signal t) := rfl
  have hsame : w.committedAt recs signal t = w.committedAt recs signal s := by
    rw [← Waveform.enteredAt_succ, ← Waveform.enteredAt_succ]
    exact Waveform.enteredAt_quiet (by omega) fun r hr => by have := hquiet r hr; omega
  rw [hstate, hsame]
  split
  · rfl
  · cases w.committedAt recs signal s with
    | none => rfl
    | some entry => simp [stateOf, Waveform.heldSlot, Slot.empty]

end

/-! ## The rows of a schedule -/

/-- The rows of which those in `done` are filled. -/
def rowsDone (times : List Nat) (right : Nat → List Sample) (done : List Nat) : List Row :=
  times.zipIdx.map fun entry => (entry.1, if entry.2 ∈ done then right entry.1 else [])

section
variable {times : List Nat} {right : Nat → List Sample}

/-- Filling one more row. -/
theorem rowsDone_modify (done : List Nat) (index : Nat) :
    (rowsDone times right done).modify index (fun row => (row.1, right (times.getD index 0))) =
      rowsDone times right (done ++ [index]) := by
  refine List.ext_getElem? fun i => ?_
  rw [List.getElem?_modify, rowsDone, rowsDone, List.getElem?_map, List.getElem?_map,
    List.getElem?_zipIdx]
  cases ht : times[i]? with
  | none => rfl
  | some t =>
    by_cases hi : index = i
    · subst hi
      simp [ht]
    · simp [hi, Ne.symm hi]

/-- With every row filled. -/
theorem rowsDone_all {done : List Nat} (h : ∀ i, i < times.length → i ∈ done) :
    rowsDone times right done = times.map fun t => (t, right t) := by
  refine List.ext_getElem? fun i => ?_
  rw [rowsDone, List.getElem?_map, List.getElem?_map, List.getElem?_zipIdx]
  cases ht : times[i]? with
  | none => rfl
  | some t =>
    obtain ⟨hlt, -⟩ := List.getElem?_eq_some_iff.1 ht
    simp [h i hlt]

/-- Without entries every row is empty. -/
theorem rowsDone_none : rowsDone times right [] = times.map fun t => (t, []) := by
  refine List.ext_getElem? fun i => ?_
  rw [rowsDone, List.getElem?_map, List.getElem?_map, List.getElem?_zipIdx]
  cases times[i]? <;> simp

/-- The rows due at a tick are filled, and the others come later. -/
theorem fillRows_done {signals : List Signal} {indices : List Nat} {t : Nat} {slots : List Slot}
    (done : List Nat) {order : List Nat}
    (hsorted : order.Pairwise fun i j => times.getD i 0 ≤ times.getD j 0)
    (hobserve : ∀ i ∈ order, times.getD i 0 ≤ t → observe signals indices slots
      (if times.getD i 0 = t then some t else none) = right (times.getD i 0)) :
    ∃ taken rest, order = taken ++ rest ∧
      fillRows signals indices times t slots (rowsDone times right done) order =
        (rowsDone times right (done ++ taken), rest) ∧ ∀ i ∈ rest, t < times.getD i 0 := by
  induction order generalizing done with
  | nil => exact ⟨[], [], rfl, by simp [fillRows], nofun⟩
  | cons index order ih =>
    obtain ⟨hlater, hrest⟩ := List.pairwise_cons.1 hsorted
    by_cases hle : times.getD index 0 ≤ t
    · obtain ⟨taken, rest, rfl, hrun, hafter⟩ := ih (done ++ [index]) hrest
        fun i hi => hobserve i (List.mem_cons_of_mem _ hi)
      refine ⟨index :: taken, rest, rfl, ?_, hafter⟩
      rw [fillRows, if_pos hle, hobserve index (by simp) hle, rowsDone_modify, hrun,
        List.append_assoc, List.singleton_append]
    · refine ⟨[], index :: order, rfl, by rw [fillRows, if_neg hle, List.append_nil], ?_⟩
      intro i hi
      rcases List.mem_cons.1 hi with rfl | hi
      · exact Nat.not_le.1 hle
      · exact Nat.lt_of_lt_of_le (Nat.not_le.1 hle) (hlater i hi)

end

section
variable {whole : List Record} {stored : Position → List Record → Prop} {sizes : Sizes}
  {src : Source} {sel : Selection}

/-- The samples of the visited slots. -/
theorem observe_view (hcarries : src.Carries sel.waveform sel.plan whole stored)
    (hsound : sel.Sound whole stored) {x t : Nat} (hle : x ≤ t)
    (hquiet : ∀ r ∈ whole, r.time < x ∨ t ≤ r.time) :
    observe sel.signals sel.plan.indices (sel.plan.retained.map (sel.waveform.viewSlot whole t))
      (if x = t then some t else none) = sel.sampleAt whole x := by
  rw [observe, entrySlots_map hsound.plans, List.map_map, Selection.sampleAt]
  have hzip : ∀ (l : List Signal) (k : Nat), (l.zipIdx k).map (fun entry =>
      (sel.waveform.viewSlot whole t entry.1).sample entry.1 (if x = t then some t else none)) =
      l.map fun s => (sel.waveform.viewSlot whole t s).sample s
      (if x = t then some t else none) := by
    intro l
    induction l with
    | nil => exact fun _ => rfl
    | cons a l ih => intro k; rw [List.zipIdx_cons, List.map_cons, List.map_cons, ih]
  refine (hzip sel.signals 0).trans (List.map_congr_left fun s hs => ?_)
  have hvalid := hsound.plans.valid_signals s hs
  by_cases heq : x = t
  · subst heq
    rw [if_pos rfl, sample_view hcarries.chronological hcarries.typed hvalid]
  · rw [if_neg heq, sample_view_before hvalid (by omega) hquiet]

/-- The samples of the slots held past the last tick. -/
theorem observe_held (hsound : sel.Sound whole stored) {x t : Nat} (hle : x ≤ t)
    (hquiet : ∀ r ∈ whole, r.time < x ∨ t < r.time) :
    observe sel.signals sel.plan.indices (sel.plan.retained.map (sel.waveform.heldSlot whole t))
      none = sel.sampleAt whole x := by
  rw [observe, entrySlots_map hsound.plans, List.map_map, Selection.sampleAt]
  have hzip : ∀ (l : List Signal) (k : Nat), (l.zipIdx k).map (fun entry =>
      (sel.waveform.heldSlot whole t entry.1).sample entry.1 none) =
      l.map fun s => (sel.waveform.heldSlot whole t s).sample s none := by
    intro l
    induction l with
    | nil => exact fun _ => rfl
    | cons a l ih => intro k; rw [List.zipIdx_cons, List.map_cons, List.map_cons, ih]
  exact (hzip sel.signals 0).trans (List.map_congr_left fun s hs => sample_held hle hquiet)

/-- The visitor of many ticks over the ticks of a traversal: the rows left over come later than
every visited tick. -/
theorem sweep_fillRows (done : List Nat)
    (hcarries : src.Carries sel.waveform sel.plan whole stored)
    (hsound : sel.Sound whole stored) {times : List Nat} {ticks order : List Nat} {lo stop : Nat}
    (hsorted : order.Pairwise fun i j => times.getD i 0 ≤ times.getD j 0)
    (hlo : ∀ i ∈ order, lo ≤ times.getD i 0) (hincreasing : ticks.Pairwise (· < ·))
    (hticks : ∀ τ, τ ∈ ticks ↔ (∃ r ∈ whole, r.time = τ) ∧ lo ≤ τ ∧ τ ≤ stop) :
    ∃ taken rest, order = taken ++ rest ∧
      sweep (B := Unit) (fun st time slots =>
          (fillRows sel.signals sel.plan.indices times time slots st.1 st.2, .ok .continue))
          (rowsDone times (sel.sampleAt whole) done, order)
          (views sel.waveform sel.plan whole ticks) =
        ((rowsDone times (sel.sampleAt whole) (done ++ taken), rest), .ok .continue) ∧
      ∀ i ∈ rest, ∀ τ ∈ ticks, τ < times.getD i 0 := by
  induction ticks generalizing lo done order with
  | nil => exact ⟨[], order, rfl, by rw [List.append_nil]; rfl, fun _ _ _ hτ => by cases hτ⟩
  | cons t ticks ih =>
    obtain ⟨hlater, hrest⟩ := List.pairwise_cons.1 hincreasing
    obtain ⟨-, htlo, htstop⟩ := (hticks t).1 (by simp)
    have hobserve : ∀ i ∈ order, times.getD i 0 ≤ t → observe sel.signals sel.plan.indices
        (sel.plan.retained.map (sel.waveform.viewSlot whole t))
        (if times.getD i 0 = t then some t else none) = sel.sampleAt whole (times.getD i 0) := by
      refine fun i hi hle => observe_view hcarries hsound hle fun r hr => ?_
      by_contra hnot
      have hge := hlo i hi
      have hmem : r.time ∈ t :: ticks := (hticks r.time).2 ⟨⟨r, hr, rfl⟩, by omega, by omega⟩
      rcases List.mem_cons.1 hmem with heq | hmem
      · omega
      · have := hlater _ hmem
        omega
    obtain ⟨taken, rest, rfl, hfill, hafter⟩ := fillRows_done done hsorted hobserve
    obtain ⟨taken', rest', rfl, hsweep, hafter'⟩ := ih (done ++ taken)
      (List.pairwise_append.1 hsorted).2.1 (fun i hi => hafter i hi) hrest fun τ => by
        constructor
        · intro hτ
          obtain ⟨hrecorded, -, hle⟩ := (hticks τ).1 (List.mem_cons_of_mem _ hτ)
          exact ⟨hrecorded, hlater τ hτ, hle⟩
        · rintro ⟨hrecorded, hge, hle⟩
          rcases List.mem_cons.1 ((hticks τ).2 ⟨hrecorded, by omega, hle⟩) with heq | hτ
          · omega
          · exact hτ
    refine ⟨taken ++ taken', rest', (List.append_assoc ..).symm, ?_, fun i hi τ hτ => ?_⟩
    · simp only [views, List.map_cons, sweep, hfill]
      rw [← List.append_assoc]
      exact hsweep
    · rcases List.mem_cons.1 hτ with rfl | hτ
      · exact hafter i (List.mem_append_right _ hi)
      · exact hafter' i hi τ hτ

/-- The schedule orders every row by its time. -/
theorem schedule_sorted (times : List Nat) :
    (schedule times).Pairwise fun i j => times.getD i 0 ≤ times.getD j 0 := by
  have : Std.Total fun i j : Nat => times.getD i 0 ≤ times.getD j 0 := ⟨fun _ _ => Nat.le_total _ _⟩
  have : IsTrans Nat fun i j => times.getD i 0 ≤ times.getD j 0 := ⟨fun _ _ _ => Nat.le_trans⟩
  exact List.pairwise_insertionSort _ _

theorem mem_schedule {times : List Nat} {i : Nat} : i ∈ schedule times ↔ i < times.length := by
  rw [schedule, List.mem_insertionSort, List.mem_range]

/-- The last row of the schedule has the latest time. -/
theorem schedule_last {times : List Nat} {i : Nat} (h : i ∈ schedule times) :
    times.getD i 0 ≤ times.getD ((schedule times).getLastD 0) 0 := by
  have hne : schedule times ≠ [] := List.ne_nil_of_mem h
  rw [List.getLastD_eq_getLast?, List.getLast?_eq_some_getLast hne, Option.getD_some]
  exact (schedule_sorted times).rel_getLast_of_rel_getLast_getLast h (Nat.le_refl _)

/-- The rows left over after the end are filled from the slots it holds. -/
theorem foldl_held (hsound : sel.Sound whole stored) {times : List Nat} {stop : Nat}
    (rest done : List Nat) (hlate : ∀ i ∈ rest, times.getD i 0 ≤ stop ∧
      ∀ r ∈ whole, r.time < times.getD i 0 ∨ stop < r.time) :
    rest.foldl (fun rows index => rows.modify index fun row => (row.1, observe sel.signals
      sel.plan.indices (sel.plan.retained.map (sel.waveform.heldSlot whole stop)) none))
      (rowsDone times (sel.sampleAt whole) done) =
    rowsDone times (sel.sampleAt whole) (done ++ rest) := by
  induction rest generalizing done with
  | nil => rw [List.append_nil]; rfl
  | cons i rest ih =>
    obtain ⟨hle, hquiet⟩ := hlate i (by simp)
    have hstep : (rowsDone times (sel.sampleAt whole) done).modify i (fun row => (row.1,
        observe sel.signals sel.plan.indices
          (sel.plan.retained.map (sel.waveform.heldSlot whole stop)) none)) =
        rowsDone times (sel.sampleAt whole) (done ++ [i]) := by
      rw [observe_held hsound hle hquiet, rowsDone_modify]
    rw [List.foldl_cons, hstep, ih _ fun j hj => hlate j (List.mem_cons_of_mem _ hj),
      List.append_assoc, List.singleton_append]

/-- The rows of many ticks are the samples of each, or the read fails. -/
theorem samplesAt_read {times : List Nat} (htries : src.Tries sel.waveform sel.plan whole stored)
    (hsound : sel.Sound whole stored) :
    (∃ sel', sel.samplesAt sizes src times =
        (sel', .ok (times.map fun t => (t, sel.sampleAt whole t))) ∧
      sel'.Sound whole stored ∧ sel'.cleared = sel.cleared) ∨
    (src.Reads sel.waveform sel.plan whole stored → ¬ Counted whole) ∧
      ∃ e, sel.samplesAt sizes src times = (sel.cleared, .error e) := by
  unfold Selection.samplesAt
  by_cases hidle : (times.isEmpty || sel.signals.isEmpty) = true
  · simp only [hidle, if_true]
    refine .inl ⟨sel, ?_, hsound, rfl⟩
    congr 2
    refine List.map_congr_left fun t ht => ?_
    rw [Bool.or_eq_true] at hidle
    rcases hidle with hnil | hnil
    · rw [List.isEmpty_iff.1 hnil] at ht; cases ht
    · rw [Selection.sampleAt, List.isEmpty_iff.1 hnil]; rfl
  · simp only [hidle, if_false, Bool.false_eq_true]
    generalize hstop : times.getD ((schedule times).getLastD 0) 0 = stop
    have hsorted := htries.chronological
    have hticks : ∀ τ, τ ∈ published (upTo stop whole) none ↔
        (∃ r ∈ whole, r.time = τ) ∧ 0 ≤ τ ∧ τ ≤ stop := by
      intro τ
      rw [mem_published]
      constructor
      · rintro ⟨⟨r, hr, rfl⟩, -⟩
        exact ⟨⟨r, ((mem_upTo hsorted).1 hr).1, rfl⟩, Nat.zero_le _, upTo_le r hr⟩
      · rintro ⟨⟨r, hr, rfl⟩, -, hle⟩
        exact ⟨⟨r, (mem_upTo hsorted).2 ⟨hr, hle⟩, rfl⟩, fun s hs => by cases hs⟩
    obtain ⟨taken, rest, horder, hsweep, hafter⟩ := sweep_fillRows [] htries.toCarries hsound
      (schedule_sorted times) (fun _ _ => Nat.zero_le _)
      (published_increasing (upTo_chronological hsorted stop) none) hticks
    rw [rowsDone_none, List.nil_append] at hsweep
    obtain ⟨sel', slots, hread, hsound', hcleared, hslots, -⟩ |
        ⟨hcounted, slots, st, outcome, hread, -, hfails⟩ :=
      readTicksFrom_read htries hsound hsweep
    swap
    · obtain ⟨e, rfl⟩ := hfails fun _ _ _ => rfl
      rw [hread]
      exact .inr ⟨hcounted, e, rfl⟩
    have hsel : sel'.signals = sel.signals ∧ sel'.plan = sel.plan := by
      have h := congrArg Selection.signals hcleared
      have h' := congrArg Selection.plan hcleared
      exact ⟨h, h'⟩
    refine .inl ⟨sel', ?_, hsound', hcleared⟩
    rw [hread]
    dsimp only
    rw [hslots rfl, hsel.1, hsel.2]
    have hlate : ∀ i ∈ rest, times.getD i 0 ≤ stop ∧
        ∀ r ∈ whole, r.time < times.getD i 0 ∨ stop < r.time := by
      intro i hi
      refine ⟨hstop ▸ schedule_last (by rw [horder]; exact List.mem_append_right _ hi),
        fun r hr => ?_⟩
      by_cases hle : r.time ≤ stop
      · exact .inl (hafter i hi r.time
          (mem_published.2 ⟨⟨r, (mem_upTo hsorted).2 ⟨hr, hle⟩, rfl⟩, fun s hs => by cases hs⟩))
      · exact .inr (Nat.not_le.1 hle)
    rw [foldl_held hsound rest taken hlate, ← horder, rowsDone_all fun i hi => mem_schedule.2 hi]

/-- The rows of many ticks of a served stream are the samples of each. -/
theorem samplesAt_served {times : List Nat}
    (hserves : src.Serves sel.waveform sel.plan whole stored)
    (hsound : sel.Sound whole stored) :
    ∃ sel', sel.samplesAt sizes src times =
        (sel', .ok (times.map fun t => (t, sel.sampleAt whole t))) ∧
      sel'.Sound whole stored ∧ sel'.cleared = sel.cleared :=
  (samplesAt_read hserves.toReads.tries hsound).resolve_right fun h =>
    h.1 hserves.toReads hserves.counts

end
end Ondas.Query
