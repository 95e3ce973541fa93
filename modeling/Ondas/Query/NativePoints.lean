import Ondas.Query.Seeking

/-!
# Native points are exact

What a native reader must do for the records of a waveform is `Native.Serves`: hand over the records
of a window, and sample bit histories as the records give them, where SHM may leave histories out
and may be told to resume only where every value is known.

A selection over such a reader then answers as a fresh one over the plain records, whatever
operations it and the other selections of the reader have done before (`native_alike`). The states
it seeks are those of the records (`pointStates_served`), so the snapshots it keeps of them are
sound, and the traversal after it is one over the reader that seeks in the stream.
-/

namespace Ondas.Query

open Library
open Vcd (Position)

/-! ## What a native reader must do -/

/-- The records of a waveform. -/
structure Recorded (w : Waveform) (recs : List Record) : Prop where
  chronological : Chronological recs
  typed : Typed w recs
  sized : Sized w recs
  span : ∀ r ∈ recs, r.time ≤ (w.timeSpan.map TimeSpan.last).getD u64Max
  counts : Counted recs
  widths : ∀ d ∈ w.definitions, d.width = totalWidth d.parts

/-- Every one of the histories has a value before a tick. -/
def KnownBefore (recs : List Record) (bases : List Signal) (t : Nat) : Prop :=
  ∀ base ∈ bases, ∃ r ∈ recs, r.base = base.index ∧ r.time < t

/-- A handle of a bit history that is read. -/
structure Seekable (w : Waveform) (bases : List Signal) (s : Signal) : Prop where
  valid : w.Valid s
  source : s.computed = false
  bits : s.width.isSome = true
  read : s.base ∈ bases

/-- A point of SHM: some histories are certified, each as the records give it. -/
structure Certifies (w : Waveform) (recs : List Record) (t : Nat) (bases : List Signal)
    (samples : List (Option Sample)) : Prop where
  exact : List.Forall₂ (fun base sample => ∀ s, sample = some s → s = w.sampleAt recs t base) bases
    samples
  some : bases ≠ [] → ∃ sample ∈ samples, sample.isSome = true

/-- A native reader of the records of a waveform. -/
structure Native.Serves (n : Native) (w : Waveform) (recs : List Record) : Prop where
  hands : ∀ resume bases start stop, (resume = true → KnownBefore recs bases start) →
    ∀ {σ B : Type} (visitor : σ → NativeRecord → σ × ControlFlow B) (c : σ),
      n.read resume bases start stop visitor c =
        ((visit visitor c ((between start stop (selected bases recs)).map
          fun r => (r.base, r.time, .ok r.value))).1,
        .ok (visit visitor c ((between start stop (selected bases recs)).map
          fun r => (r.base, r.time, .ok r.value))).2)
  sampleBits : ∀ bases projections t, (∀ s ∈ projections, Seekable w bases s) →
    n.sampleBits bases projections t = .ok (projections.map (w.sampleAt recs t))
  shmPoints : ∀ bases t prepareFallback, (∀ base ∈ bases, Seekable w bases base) →
    ∃ answer, n.shmPoints bases t prepareFallback = .ok answer ∧
      ∀ samples, answer = some samples → Certifies w recs t bases samples

section
variable {n : Native} {w : Waveform} {recs : List Record} {bases : List Signal}

/-- A native reader is, under a traversal, the one that seeks in its records. -/
theorem Native.Serves.agrees (h : n.Serves w recs) {resumable : Option Position}
    (hknown : ∀ p, resumable = some p → KnownBefore recs bases p.offset) :
    (n.source resumable).Agrees (.seeking n.backend recs) bases := by
  refine ⟨rfl, rfl, fun {σ B} tr stop origin st => ?_⟩
  have hresume : (origin.isSome && decide (origin = resumable) && cacheable bases) = true →
      KnownBefore recs bases ((origin.map Position.offset).getD 0) := by
    intro hresume
    simp only [Bool.and_eq_true, decide_eq_true_eq] at hresume
    obtain ⟨⟨hsome, rfl⟩, -⟩ := hresume
    obtain ⟨p, rfl⟩ := Option.isSome_iff_exists.1 hsome
    exact hknown p rfl
  have hvisit := visit_map (consume tr) (Record.handed (cacheable bases)) st
    (between ((origin.map Position.offset).getD 0) stop (selected bases recs))
  rw [← consume_firsts tr (cacheable bases) none _ fun t ht => by cases ht] at hvisit
  simp only [Native.source, Source.seeking, h.hands _ _ _ _ hresume, visit_map]
  rcases hrun : visit (consume tr) st (firsts (cacheable bases) none
    (between ((origin.map Position.offset).getD 0) stop (selected bases recs))) with ⟨st', flow⟩
  rw [hrun] at hvisit
  simp only [Record.handed] at hvisit
  rw [← hvisit]
  cases flow <;> rfl

end

/-! ## The records of some histories -/

section
variable {w : Waveform} {recs : List Record} {bases : List Signal} {s : Signal} {t : Nat}

/-- Selecting the histories of a plan keeps each of them. -/
theorem history_selected (hin : s.index ∈ bases.map Signal.index) :
    history (selected bases recs) s.index = history recs s.index := by
  obtain ⟨base, hbase, hindex⟩ := List.mem_map.1 hin
  unfold history selected
  rw [List.filterMap_filter]
  refine List.filterMap_congr fun r _ => ?_
  split
  · rfl
  · next hnot =>
    rw [if_neg]
    rintro ⟨hsame, -⟩
    exact hnot (List.any_eq_true.2 ⟨base, hbase, by simp [hindex, hsame]⟩)

/-- The state of a source handle comes from the records of its history. -/
theorem committedAt_selected (hsorted : Chronological recs) (hvalid : w.Valid s)
    (hc : s.computed = false) (hin : s.index ∈ bases.map Signal.index) :
    w.committedAt (selected bases recs) s t = w.committedAt recs s t := by
  have hvalue : w.valueAt (selected bases recs) s = w.valueAt recs s := by
    funext t
    rw [Waveform.valueAt, Waveform.valueAt, Waveform.value_source hc, Waveform.value_source hc,
      history_selected hin]
  have hentering : w.enteringAt (selected bases recs) s = w.enteringAt recs s := by
    funext t
    rw [Waveform.enteringAt, Waveform.enteringAt, Waveform.value_source hc,
      Waveform.value_source hc, history_selected hin]
  unfold Waveform.committedAt committed changedAt
  rw [hvalue, hentering]
  congr 1
  funext v
  congr 1
  refine lastTick_sublist (List.filter_sublist.map _) (recorded_sorted hsorted) fun τ _ hτ => ?_
  cases hwritten : w.writtenAt (selected bases recs) s τ with
  | true => exact Waveform.writtenAt_recorded hvalid hwritten
  | false =>
    have hquiet := Waveform.valueAt_quiet hvalid hwritten
    rw [hvalue, hentering] at hquiet
    simp [hquiet] at hτ

/-- A handle that can be sought is no event. -/
theorem Seekable.persistent (h : Seekable w bases s) : s.encoding ≠ .event := by
  intro hevent
  have hbits := h.bits
  simp [Signal.width, hevent] at hbits

theorem Seekable.index_mem (h : Seekable w bases s) : s.index ∈ bases.map Signal.index :=
  List.mem_map.2 ⟨s.base, h.read, rfl⟩

/-- The sample of a bit handle keeps its state. -/
theorem sampleAt_state (hpersistent : s.encoding ≠ .event) :
    (w.sampleAt recs t s).state = stateOf (w.committedAt recs s t) := by
  unfold Waveform.sampleAt
  rw [if_neg hpersistent]
  cases w.committedAt recs s t <;> rfl

/-- A sample names its handle. -/
theorem sampleAt_signal : (w.sampleAt recs t s).signal = s := by
  unfold Waveform.sampleAt
  split
  · rfl
  · cases w.committedAt recs s t <;> rfl

/-- The slot of a sample of a bit handle. -/
theorem Seekable.slot (h : Seekable w bases s) (hsorted : Chronological recs) :
    (w.sampleAt recs t s).slot = w.heldSlot (selected bases recs) t s := by
  rw [Waveform.heldSlot, committedAt_selected hsorted h.valid h.source h.index_mem,
    ← sampleAt_state h.persistent]
  rfl

/-- The sample of a bit handle is that of the records of the histories that are read. -/
theorem Seekable.sampleAt_selected (h : Seekable w bases s) (hsorted : Chronological recs) :
    w.sampleAt (selected bases recs) t s = w.sampleAt recs t s := by
  unfold Waveform.sampleAt
  rw [if_neg h.persistent, if_neg h.persistent,
    committedAt_selected hsorted h.valid h.source h.index_mem]

end

/-! ## The slots of a point -/

section
variable {w : Waveform} {plan : Plan} {whole : List Record} {s : Signal} {t : Nat}

/-- The history of a source handle of a plan is read. -/
theorem Plan.Fits.base_mem (hfits : plan.Fits w) (hs : s ∈ plan.retained)
    (hc : s.computed = false) :
    s.base ∈ plan.bases := by
  obtain ⟨slot, hslot⟩ := List.getElem?_of_mem hs
  have hentry := (hfits.entries s.index slot).2 ⟨s, hslot, hc, rfl⟩
  have hsome : (plan.groups s.index).isSome = true := by
    unfold Plan.entries at hentry
    cases hgroup : plan.groups s.index with
    | none => rw [hgroup] at hentry; cases hentry
    | some => rfl
  obtain ⟨base, hbase, hindex⟩ := List.mem_map.1 ((hfits.bases s.index).1 hsome)
  obtain ⟨o, ho, hoc, rfl⟩ := hfits.sources base hbase
  rw [base_eq (hfits.valid s hs) (hfits.valid o ho) hc hoc hindex.symm]
  exact hbase

/-- The handles of bit histories are bits. -/
theorem Plan.Fits.width_isSome (hfits : plan.Fits w)
    (hbits : plan.bases.all (fun base => base.width.isSome) = true) (hs : s ∈ plan.retained) :
    s.width.isSome = true := by
  have hwidth : ∀ s : Signal, s.width.isSome = true ↔ ∃ width, s.encoding = .bits width := by
    intro s
    unfold Signal.width
    cases s.encoding <;> simp
  rw [hwidth, (hfits.valid s hs).bits]
  cases hc : s.computed with
  | false => exact (hwidth s.base).1 (List.all_eq_true.1 hbits _ (hfits.base_mem hs hc))
  | true =>
    have hencoding := (validateEncoding_ok (hfits.valid s hs)).2.2.1
    rw [encodingOf, if_pos hc] at hencoding
    obtain ⟨d, -, hd⟩ := Option.map_eq_some_iff.1 hencoding
    exact ⟨d.width, hd.symm⟩

/-- The source handles and the histories of a plan over bits. -/
theorem Plan.Fits.seekable (hfits : plan.Fits w)
    (hbits : plan.bases.all (fun base => base.width.isSome) = true) (hs : s ∈ plan.retained)
    (hc : s.computed = false) : Seekable w plan.bases s :=
  ⟨hfits.valid s hs, hc, hfits.width_isSome hbits hs, hfits.base_mem hs hc⟩

/-- The source histories of a plan can be sought when all of them have widths. -/
theorem Plan.Fits.base_seekable (hfits : plan.Fits w)
    (hbits : plan.bases.all (fun base => base.width.isSome) = true) {base : Signal}
    (hbase : base ∈ plan.bases) : Seekable w plan.bases base := by
  have hmem := hbase
  obtain ⟨o, ho, hoc, rfl⟩ := hfits.sources base hbase
  exact ⟨(hfits.valid o ho).base, hoc, List.all_eq_true.1 hbits _ hmem, hmem⟩

/-- A valid handle of a single bit is whole. -/
theorem Waveform.Valid.whole_of_bit (hvalid : w.Valid s) (hbit : s.base.encoding = .bits 1) :
    s.isSlice = false := by
  have hbase : s.baseEncoding = .bits 1 := hbit
  have hin := (validateEncoding_ok hvalid).2.2.2
  rcases s with ⟨source, index, computed, baseEncoding, encoding, lsb⟩
  dsimp only at hbase
  subst hbase
  rcases inBase_cases hin with ⟨base, width, hbase, hwidth⟩ | ⟨hsame, hzero⟩
  · dsimp only at hwidth
    subst hwidth
    simp only [inBase, Bool.and_eq_true, Bool.or_eq_true, decide_eq_true_eq, beq_iff_eq,
      Signal.base, Signal.mk.injEq, true_and, Encoding.bits.injEq] at hin
    obtain ⟨hpos, hle⟩ := hin
    obtain ⟨rfl, rfl⟩ : width = 1 ∧ lsb = 0 := by omega
    exact bne_self_eq_false _
  · cases hsame
    cases hzero
    exact bne_self_eq_false _

/-- The slots that the samples of some histories fill. -/
theorem foldl_pointSlots (hfits : plan.Fits w) (hnil : plan.computations = [])
    (hwhole : ∀ s ∈ plan.retained, s.isSlice = false)
    (hbits : plan.bases.all (fun base => base.width.isSome) = true) {bases : List Signal}
    (hbases : ∀ b ∈ bases, b ∈ plan.bases) {slots : List Slot}
    (hslots : ∀ (i : Nat) (s : Signal), plan.retained[i]? = some s → slots[i]? = some Slot.empty ∨
      slots[i]? = some (w.heldSlot whole t s)) :
    ∀ (i : Nat) (s : Signal), plan.retained[i]? = some s →
      ((bases.map (w.sampleAt whole t)).foldl (fun slots sample =>
        modifyAll (fun slot => { slot with state := sample.state }) slots
          (plan.entries sample.signal.index)) slots)[i]? =
        if s.index ∈ bases.map Signal.index then some (w.heldSlot whole t s) else slots[i]? := by
  have hsource := hfits.computes.source_of_nil hnil
  induction bases generalizing slots with
  | nil => simp
  | cons b bases ih =>
    have hb := hfits.base_seekable hbits (hbases b List.mem_cons_self)
    have hbslice : b.isSlice = false := by
      obtain ⟨o, -, -, rfl⟩ := hfits.sources b (hbases b List.mem_cons_self)
      exact Waveform.base_isSlice o
    have hfirst : ∀ (i : Nat) (s : Signal), plan.retained[i]? = some s →
        (modifyAll (fun slot => { slot with state := (w.sampleAt whole t b).state }) slots
          (plan.entries (w.sampleAt whole t b).signal.index))[i]? =
        if s.index = b.index then some (w.heldSlot whole t s) else slots[i]? := by
      intro i s hs
      have hmem := List.mem_of_getElem? hs
      have hentry : i ∈ plan.entries b.index ↔ s.index = b.index := by
        rw [hfits.entries]
        constructor
        · rintro ⟨s', hs', -, hindex⟩
          rw [hs, Option.some.injEq] at hs'
          exact hs' ▸ hindex
        · exact fun hindex => ⟨s, hs, hsource s hmem, hindex⟩
      rw [sampleAt_signal, sampleAt_state hb.persistent, modifyAll_getElem? (hfits.entries_nodup _)]
      simp only [hentry]
      split
      · next hindex =>
        have hsame : w.committedAt whole s t = w.committedAt whole b t :=
          committedAt_whole (hsource s hmem) hb.source (hwhole s hmem) hbslice hindex
        rcases hslots i s hs with hold | hold <;> (rw [hold, ← hsame]; rfl)
      · exact Option.map_id'
    intro i s hs
    rw [List.map_cons, List.foldl_cons, ih (fun b' hb' => hbases b' (List.mem_cons_of_mem _ hb'))
      (fun j s' hs' => ?_) i s hs, hfirst i s hs, List.map_cons]
    · by_cases hindex : s.index = b.index
      · simp [hindex]
      · simp [hindex]
    · rw [hfirst j s' hs']
      split
      · exact .inr rfl
      · exact hslots j s' hs'

/-- The slots that the samples of all histories of a plan fill. -/
theorem pointSlots_eq (hfits : plan.Fits w) (hnil : plan.computations = [])
    (hwhole : ∀ s ∈ plan.retained, s.isSlice = false)
    (hbits : plan.bases.all (fun base => base.width.isSome) = true) :
    plan.pointSlots (plan.bases.map (w.sampleAt whole t)) =
      plan.retained.map (w.heldSlot whole t) := by
  refine List.ext_getElem? fun i => ?_
  rw [List.getElem?_map]
  cases hs : plan.retained[i]? with
  | none =>
    have hlength : ∀ (samples : List Sample) (slots : List Slot),
        (samples.foldl (fun slots sample =>
        modifyAll (fun slot => { slot with state := sample.state }) slots
          (plan.entries sample.signal.index)) slots).length = slots.length := by
      intro samples
      induction samples with
      | nil => exact fun _ => rfl
      | cons sample samples ih => exact fun slots => (ih _).trans (modifyAll_length ..)
    rw [Option.map_none, List.getElem?_eq_none_iff, Plan.pointSlots, hlength, List.length_map]
    exact List.getElem?_eq_none_iff.1 hs
  | some s =>
    have hmem := List.mem_of_getElem? hs
    have hin : s.index ∈ plan.bases.map Signal.index :=
      List.mem_map.2 ⟨s.base, hfits.base_mem hmem (hfits.computes.source_of_nil hnil s hmem), rfl⟩
    rw [Plan.pointSlots, foldl_pointSlots hfits hnil hwhole hbits (fun _ hb => hb)
      (fun j s' hs' => .inl (by rw [List.getElem?_map, hs']; rfl)) i s hs, if_pos hin]
    rfl

end

/-! ## The points of SHM -/

section
variable {n : Native} {w : Waveform} {recs : List Record} {bases : List Signal} {t : Nat}

/-- A temporary selection of fewer histories samples them as the records give them. -/
def Fallback.Exact (fallback : Fallback) (w : Waveform) (recs : List Record) (count : Nat) : Prop :=
  ∀ missing t handoff, missing ≠ [] → missing.length < count →
    (∀ base ∈ missing, Seekable w missing base ∧ base.isSlice = false) →
    (fallback w missing t handoff).2 = .ok (missing.map (w.sampleAt recs t))

/-- The histories without a certified sample are among those of the plan. -/
theorem mem_uncertified {samples : List (Option Sample)} {base : Signal}
    (h : base ∈ uncertified bases samples) : base ∈ bases := by
  obtain ⟨entry, hentry, hbase⟩ := List.mem_filterMap.1 h
  split at hbase
  · cases hbase
    exact (List.of_mem_zip hentry).1
  · cases hbase

/-- Filling what is not certified gives the samples of all histories. -/
theorem fillSamples_exact {samples : List (Option Sample)}
    (h : List.Forall₂ (fun base sample => ∀ s, sample = some s → s = w.sampleAt recs t base) bases
      samples) :
    fillSamples samples ((uncertified bases samples).map (w.sampleAt recs t)) =
      bases.map (w.sampleAt recs t) := by
  induction h with
  | nil => rfl
  | @cons base sample bases samples hsample _ ih =>
    cases sample with
    | some s =>
      obtain rfl := hsample s rfl
      exact congrArg _ ih
    | none => exact congrArg _ ih

/-- Some histories are certified, so fewer are left. -/
theorem Certifies.uncertified_lt {samples : List (Option Sample)}
    (h : Certifies w recs t bases samples)
    (hne : bases ≠ []) : (uncertified bases samples).length < bases.length := by
  obtain ⟨sample, hmem, hsome⟩ := h.some hne
  have hlength := h.exact.length_eq
  have hle : ∀ {bases : List Signal} {samples : List (Option Sample)},
      (uncertified bases samples).length ≤ bases.length := fun {bases samples} =>
    (List.length_filterMap_le _ _).trans (by rw [List.length_zip]; exact Nat.min_le_left _ _)
  clear h hne
  induction bases generalizing samples with
  | nil =>
    cases samples with
    | nil => cases hmem
    | cons => cases hlength
  | cons base bases ih =>
    cases samples with
    | nil => cases hlength
    | cons first samples =>
      cases first with
      | some s => exact Nat.lt_succ_of_le (@hle bases samples)
      | none =>
        refine Nat.succ_lt_succ (ih ?_ (Nat.succ.inj hlength))
        rcases List.mem_cons.1 hmem with rfl | hmem
        · cases hsome
        · exact hmem

/-- The identities that are left are those of the histories that are. -/
theorem uncertified_ids (samples : List (Option Sample)) :
    ((bases.map Signal.index).zip samples).filterMap
      (fun entry => if entry.2.isNone then some entry.1 else none) =
        (uncertified bases samples).map Signal.index := by
  unfold uncertified
  rw [List.zip_map_left, List.filterMap_map, List.map_filterMap]
  refine List.filterMap_congr fun entry _ => ?_
  obtain ⟨base, sample⟩ := entry
  cases sample <;> rfl

/-- **An SHM point is that of the records**, or is left to an ordinary read. -/
theorem shmPointSamples_served (hserves : n.Serves w recs) {fallback : Fallback}
    (hfallback : fallback.Exact w recs bases.length)
    (hbases : ∀ base ∈ bases, Seekable w bases base ∧ base.isSlice = false) (handoff : Handoff)
    (prepareFallback : Bool) :
    ∃ handoff' answer, n.shmPointSamples fallback w bases handoff t prepareFallback =
      (handoff', .ok answer) ∧
        ∀ samples, answer = some samples → samples = bases.map (w.sampleAt recs t) := by
  obtain ⟨answer, hpoints, hcertifies⟩ :=
    hserves.shmPoints bases t prepareFallback fun base hbase => (hbases base hbase).1
  unfold Native.shmPointSamples Native.shmSampleBits
  dsimp only
  by_cases hprepared : handoff = some (bases.map Signal.index, t)
  · rw [if_pos hprepared]
    exact ⟨_, _, rfl, fun samples h => by cases h⟩
  · rw [if_neg hprepared, hpoints]
    cases answer with
    | none => exact ⟨_, _, rfl, fun samples h => by cases h⟩
    | some samples =>
      have hcertified := hcertifies samples rfl
      have hfilled := fillSamples_exact hcertified.exact
      dsimp only
      rw [uncertified_ids, List.length_map, List.isEmpty_map]
      cases hempty : (uncertified bases samples).isEmpty with
      | true =>
        rw [List.isEmpty_iff.1 hempty] at hfilled
        rw [if_pos rfl]
        dsimp only
        rw [hempty, if_pos rfl]
        exact ⟨_, _, rfl, fun samples' h => by cases h; exact hfilled⟩
      | false =>
        have hne : bases ≠ [] := by
          rintro rfl
          cases hempty
        have hlt := hcertified.uncertified_lt hne
        have hmissing : ∀ base ∈ uncertified bases samples,
            Seekable w (uncertified bases samples) base ∧ base.isSlice = false := by
          intro base hmem
          obtain ⟨hseek, hwhole⟩ := hbases base (mem_uncertified hmem)
          have hsame : base = base.base := by simpa [Signal.isSlice] using hwhole
          exact ⟨⟨hseek.valid, hseek.source, hseek.bits, by rwa [← hsame]⟩, hwhole⟩
        have hleft := hfallback (uncertified bases samples) t
          (some ((uncertified bases samples).map Signal.index, t))
          (by simpa using hempty) hlt hmissing
        rw [if_neg (by simp), if_neg (Nat.ne_of_lt hlt)]
        dsimp only
        rw [hempty, if_neg (by simp)]
        rcases hread : fallback w (uncertified bases samples) t
          (some ((uncertified bases samples).map Signal.index, t)) with ⟨handoff', result⟩
        rw [hread] at hleft
        dsimp only at hleft
        subst hleft
        exact ⟨_, _, rfl, fun samples' h => by cases h; exact hfilled⟩

end

/-! ## The states a selection seeks -/

/-- The snapshot of an end is at the tick after it, and no history counts events. -/
structure Selection.Ended (sel : Selection) : Prop where
  snapshot : ∀ replay, sel.replay = some replay →
    replay.position = ⟨replay.stop + 1, replay.stop, false⟩ ∧ cacheable sel.plan.bases = true

/-- A selection over a native reader with snapshots of its records. -/
structure NativeSelection.Kept (w : Waveform) (recs : List Record) (ns : NativeSelection) :
    Prop where
  waveform : ns.sel.waveform = w
  sound : ns.sel.Sound (selected ns.sel.plan.bases recs) (Ahead (selected ns.sel.plan.bases recs))
  ended : ns.sel.Ended

section
variable {w : Waveform} {plan : Plan} {recs whole done rest : List Record} {sel : Selection}
  {replay : Replay} {s : Signal} {t : Nat}

/-- The records of a plan are in order, typed and sized, as all records are. -/
theorem Recorded.stream (h : Recorded w recs) (bases : List Signal) :
    Chronological (selected bases recs) ∧ Typed w (selected bases recs) ∧
      Sized w (selected bases recs) :=
  ⟨h.chronological.sublist List.filter_sublist, fun r hr => h.typed r (List.mem_filter.1 hr).1,
    fun r hr => h.sized r (List.mem_filter.1 hr).1⟩

/-- The records behind a position are before its tick. -/
theorem Ahead.done_lt {p : Position} (h : Ahead whole p rest) (hsplit : whole = done ++ rest) :
    ∀ r ∈ done, r.time < p.offset := by
  have hrest : fromTick p.offset rest = rest := by
    rw [h.1, fromTick, fromTick, List.filter_filter]
    exact List.filter_congr fun r _ => Bool.and_self _
  have hdone : fromTick p.offset done = [] := by
    have hall := h.1
    rw [hsplit, fromTick, List.filter_append, ← fromTick, ← fromTick, hrest] at hall
    exact List.append_left_eq_self.1 hall.symm
  intro r hr
  by_contra hge
  have hmem : r ∈ fromTick p.offset done :=
    List.mem_filter.2 ⟨hr, decide_eq_true (Nat.not_lt.1 hge)⟩
  rw [hdone] at hmem
  cases hmem

/-- What lies ahead of a position is not before it. -/
theorem Ahead.rest_ge {p : Position} (h : Ahead whole p rest) : ∀ r ∈ rest, p.offset ≤ r.time := by
  intro r hr
  rw [h.1] at hr
  simpa using (List.mem_filter.1 hr).2

/-- A snapshot that is resumed is one of the selection. -/
theorem Selection.Sound.resumed_valid {stored : Position → List Record → Prop}
    (h : sel.Sound whole stored) {start : Option Nat} {stop : Nat}
    (hresumed : sel.resumed start stop = some replay) :
    replay.Valid sel.waveform sel.plan whole stored := by
  unfold Selection.resumed at hresumed
  rcases Option.or_eq_some_iff.1 hresumed with hsome | ⟨-, hsome⟩
  · exact h.replay replay (Option.filter_eq_some_iff.1 hsome).1
  · exact h.checkpoint replay (Option.filter_eq_some_iff.1 hsome).1

/-- A known slot of a snapshot says that its history has a value. -/
theorem openSlot_known (hc : s.computed = false)
    (h : (w.openSlot done t s).state.isSome = true) : ∃ r ∈ done, r.base = s.index := by
  have hentering : (w.enteringAt done s t).isSome = true := by
    have hstate : (w.openSlot done t s).state = stateOf (w.enteredAt done s t) := rfl
    rw [hstate, stateOf, Option.isSome_map, Waveform.enteredAt, entered, Option.isSome_map] at h
    exact h
  rw [Waveform.enteringAt, Waveform.value_source hc, Option.isSome_map] at hentering
  obtain ⟨v, hv⟩ := Option.isSome_iff_exists.1 hentering
  obtain ⟨τ, hmem⟩ := History.entering_mem hv
  obtain ⟨r, hr, hbase, -⟩ := mem_history hmem
  exact ⟨r, hr, hbase⟩

/-- An SHM read resumes where every value is known. -/
theorem NativeSelection.Kept.resumable_known {ns : NativeSelection} (hkept : ns.Kept w recs)
    {n : Native} {start : Option Nat} {stop : Nat} {p : Position}
    (h : n.resumable ns.sel start stop = some p) : KnownBefore recs ns.sel.plan.bases p.offset := by
  unfold Native.resumable at h
  split at h
  · obtain ⟨replay, hfilter, rfl⟩ := Option.map_eq_some_iff.1 h
    obtain ⟨hresumed, hknown⟩ := Option.filter_eq_some_iff.1 hfilter
    simp only [Bool.and_eq_true, List.all_eq_true] at hknown
    obtain ⟨done, rest, hsplit, hsplits⟩ := hkept.sound.resumed_valid hresumed
    intro base hbase
    obtain ⟨s, hs, hc, rfl⟩ := hkept.sound.plans.sources base hbase
    obtain ⟨r, hr, hindex⟩ := openSlot_known hc (hknown.2 _ (by
      rw [hsplits.slots]
      exact List.mem_map_of_mem hs))
    refine ⟨r, ?_, hindex, hsplits.stored.done_lt hsplit r hr⟩
    have hmem : r ∈ selected ns.sel.plan.bases recs := by
      rw [hsplit]
      exact List.mem_append_left _ hr
    exact (List.mem_filter.1 hmem).1
  · cases h

/-- The state after a tick, as a snapshot at the next tick holds it. -/
theorem openSlot_held (hvalid : w.Valid s) (hdone : ∀ r ∈ done, r.time ≤ t)
    (hrest : ∀ r ∈ rest, t < r.time) :
    w.openSlot done (t + 1) s = w.heldSlot (done ++ rest) t s := by
  rw [openSlot_past hvalid hdone, Waveform.heldSlot, Waveform.committedAt_append hrest]

/-- The state of a point is a sound snapshot. -/
theorem heldSlots_valid (hfits : plan.Fits w) (hsorted : Chronological whole) (t : Nat) :
    (⟨⟨t + 1, t, false⟩, t + 1, t, none, plan.retained.map (w.heldSlot whole t)⟩ : Replay).Valid w
      plan
      whole (Ahead whole) := by
  have hle : ∀ r ∈ upTo t whole, r.time ≤ t := upTo_le
  have hgt := @past_gt t whole hsorted
  have hahead : past t whole = fromTick (t + 1) whole := by
    conv_rhs => rw [← upTo_append_past t whole]
    exact (fromTick_append (fun r hr => Nat.lt_succ_of_le (hle r hr)) fun r hr => hgt r hr).symm
  refine ⟨upTo t whole, past t whole, (upTo_append_past t whole).symm, ⟨hahead, Nat.le_refl _⟩,
    Nat.le_refl _, ?_, fun r hr => Nat.le_succ_of_le (hle r hr), fun r hr => hgt r hr, hle,
    .inr ⟨rfl, fun r hr => Nat.lt_succ_of_le (hle r hr)⟩⟩
  refine List.map_congr_left fun s hs => ?_
  rw [openSlot_held (hfits.valid s hs) hle hgt, upTo_append_past]

/-- A snapshot of the state after a tick holds that state. -/
theorem Replay.Valid.held (hfits : plan.Fits w) (h : replay.Valid w plan whole (Ahead whole))
    (hposition : replay.position = ⟨replay.stop + 1, replay.stop, false⟩)
    (hstart : replay.start = replay.stop + 1) :
    replay.slots = plan.retained.map (w.heldSlot whole replay.stop) := by
  obtain ⟨done, rest, rfl, hsplits⟩ := h
  have hrest := hsplits.stored.rest_ge
  rw [hposition] at hrest
  rw [hsplits.slots, hstart]
  exact List.map_congr_left fun s hs => openSlot_held (hfits.valid s hs) hsplits.done_le hrest

/-- The handles of the entries have slots. -/
theorem Plan.Plans.mem_retained {signals : List Signal} (h : plan.Plans w signals)
    (hs : s ∈ signals) : s ∈ plan.retained := by
  obtain ⟨i, hi⟩ := List.getElem?_of_mem hs
  obtain ⟨slot, -, hslot⟩ := h.slot hi
  exact List.mem_of_getElem? hslot

/-- The states of the entries, from the slots of their handles. -/
theorem Plan.Plans.states {signals : List Signal} (h : plan.Plans w signals) (f : Signal → Slot) :
    plan.states (plan.retained.map f) = signals.map fun s => (f s).state := by
  have hlength : plan.indices.length = signals.length := by
    simpa using congrArg List.length h.indices
  unfold Plan.states
  refine List.ext_getElem? fun i => ?_
  rw [List.getElem?_map, List.getElem?_map]
  cases hs : signals[i]? with
  | none =>
    rw [List.getElem?_eq_none_iff.2 (by rw [hlength]; exact List.getElem?_eq_none_iff.1 hs)]
    rfl
  | some s =>
    obtain ⟨slot, hslot, hretained⟩ := h.slot hs
    rw [hslot, Option.map_some, Option.map_some, slotAt_mapped hretained]

end

section
variable {n : Native} {w : Waveform} {recs : List Record} {sel : Selection} {t : Nat}

/-- The slots a native reader seeks hold the states of the handles. -/
theorem slotsAt_served (hrecorded : Recorded w recs) (hserves : n.Serves w recs)
    {fallback : Fallback}
    (hfallback : fallback.Exact w recs sel.plan.bases.length) (hwaveform : sel.waveform = w)
    (hfits : sel.plan.Fits w) {signals : List Signal}
    (hseeks : n.seeks sel.plan signals t = true) (handoff : Handoff) (prepareFallback : Bool) :
    ∃ handoff' answer, n.slotsAt fallback sel handoff t prepareFallback = (handoff', .ok answer) ∧
      ∀ slots, answer = some slots →
        slots = sel.plan.retained.map (w.heldSlot (selected sel.plan.bases recs) t) := by
  obtain ⟨hsorted, htyped, hsized⟩ := hrecorded.stream sel.plan.bases
  unfold Native.seeks at hseeks
  simp only [Bool.and_eq_true] at hseeks
  obtain ⟨⟨⟨hplan, -⟩, hbits⟩, hshm⟩ := hseeks
  have hbases : ∀ base ∈ sel.plan.bases, Seekable w sel.plan.bases base :=
    fun base hbase => hfits.base_seekable hbits hbase
  have hplain : n.repeatsSource sel.plan = false → sel.plan.computations = [] := by
    intro hnot
    rw [hnot, Bool.or_false, List.isEmpty_iff] at hplan
    exact hplan
  have hseek : ∀ slots, (if n.repeatsSource sel.plan then sel.plan.repeatedSourceSlots
      ((((if n.repeatsSource sel.plan then sel.plan.bases else sel.plan.retained).map
        (w.sampleAt recs t)).map Sample.slot).head?.bind Slot.state)
      else ((if n.repeatsSource sel.plan then sel.plan.bases else sel.plan.retained).map
        (w.sampleAt recs t)).map Sample.slot) = slots →
      slots = sel.plan.retained.map (w.heldSlot (selected sel.plan.bases recs) t) := by
    rintro _ rfl
    cases hrepeats : n.repeatsSource sel.plan with
    | true =>
      rw [if_pos rfl, if_pos rfl]
      have hone : sel.plan.repeatsOneSource = true := by
        unfold Native.repeatsSource at hrepeats
        exact (Bool.and_eq_true _ _ ▸ hrepeats).2
      obtain ⟨source, width, hsource, -⟩ := hfits.repeats hrecorded.widths hone
      have hstate := (hbases source (by rw [hsource]; exact List.mem_cons_self)).slot (t := t)
        hrecorded.chronological
      rw [← repeatedSourceSlots_eq hfits hrecorded.widths hone htyped hsized hsource t, hsource,
        List.map_cons, List.map_cons, List.head?_cons, Option.bind_some, hstate, hsource]
      rfl
    | false =>
      rw [if_neg (by simp), if_neg (by simp), List.map_map]
      refine List.map_congr_left fun s hs => ?_
      have hc := hfits.computes.source_of_nil (hplain hrepeats) s hs
      exact (hfits.seekable hbits hs hc).slot hrecorded.chronological
  have hprojections :
      ∀ s ∈ (if n.repeatsSource sel.plan then sel.plan.bases else sel.plan.retained),
      Seekable w sel.plan.bases s := by
    cases hrepeats : n.repeatsSource sel.plan with
    | true => exact hbases
    | false =>
      intro s hs
      exact hfits.seekable hbits hs (hfits.computes.source_of_nil (hplain hrepeats) s hs)
  have hsamples := hserves.sampleBits sel.plan.bases _ t hprojections
  unfold Native.slotsAt
  split
  · next hkind =>
    have hnot : n.repeatsSource sel.plan = false := by simp [Native.repeatsSource, hkind]
    have hnil := hplain hnot
    have hwhole : ∀ s ∈ sel.plan.retained, s.isSlice = false := by
      intro s hs
      simp only [hkind, ne_eq, not_true_eq_false, decide_false, Bool.false_or, Bool.and_eq_true,
        List.all_eq_true, Bool.or_eq_true, Bool.not_eq_true', decide_eq_true_eq] at hshm
      rcases hshm.2 s hs with hwhole | hbit
      · exact hwhole
      · exact (hfits.valid s hs).whole_of_bit hbit
    have hwholes : ∀ base ∈ sel.plan.bases, Seekable w sel.plan.bases base ∧
        base.isSlice = false := by
      intro base hbase
      obtain ⟨o, -, -, rfl⟩ := hfits.sources base hbase
      exact ⟨hbases _ hbase, Waveform.base_isSlice o⟩
    obtain ⟨handoff', answer, hread, hexact⟩ := shmPointSamples_served (t := t) hserves hfallback
      hwholes handoff prepareFallback
    rw [hwaveform, hread]
    cases answer with
    | none => exact ⟨_, _, rfl, fun slots h => by cases h⟩
    | some samples =>
      obtain rfl := hexact samples rfl
      refine ⟨_, _, rfl, fun slots h => ?_⟩
      cases h
      rw [← pointSlots_eq hfits hnil hwhole hbits]
      congr 1
      exact List.map_congr_left fun base hbase =>
        ((hbases base hbase).sampleAt_selected hrecorded.chronological).symm
  · rw [hsamples]
    exact ⟨_, _, rfl, fun slots h => hseek slots (Option.some.inj h)⟩

/-- Bit histories do not count events. -/
theorem cacheable_of_bits {bases : List Signal}
    (h : bases.all (fun base => base.width.isSome) = true) : cacheable bases = true := by
  unfold cacheable
  rw [Bool.not_eq_true', List.any_eq_false]
  intro base hbase hevent
  have hbits := List.all_eq_true.1 h base hbase
  simp [Signal.width, of_decide_eq_true hevent] at hbits

/-- A selection without snapshots. -/
theorem NativeSelection.Kept.cleared {ns : NativeSelection} (hkept : ns.Kept w recs)
    (handoff : Handoff) : NativeSelection.Kept w recs ⟨ns.sel.cleared, handoff⟩ :=
  ⟨hkept.waveform, ⟨hkept.sound.plans, fun replay hreplay => (by cases hreplay),
    fun replay hreplay => (by cases hreplay)⟩, ⟨fun replay hreplay => (by cases hreplay)⟩⟩

/-- **The states a selection seeks are those of the records**, and the snapshot it keeps of them is
sound. -/
theorem pointStates_served (hrecorded : Recorded w recs) (hserves : n.Serves w recs)
    {fallback : Fallback} {ns : NativeSelection} (hkept : ns.Kept w recs)
    (hfallback : fallback.Exact w recs ns.sel.plan.bases.length) (sizes : Sizes) (t : Nat)
    (prepareFallback : Bool) :
    ∃ ns' answer, ns.pointStates fallback sizes n t prepareFallback = (ns', .ok answer) ∧
      ns'.Kept w recs ∧ ns'.sel.cleared = ns.sel.cleared ∧
      ∀ states, answer = some states → (∀ s ∈ ns.sel.signals, s.encoding ≠ .event) ∧
        states = ns.sel.signals.map fun s =>
          stateOf (w.committedAt (selected ns.sel.plan.bases recs) s t) := by
  obtain ⟨hsorted, -, -⟩ := hrecorded.stream ns.sel.plan.bases
  have hplans := hkept.sound.plans
  rw [hkept.waveform] at hplans
  have hcleared : ∀ handoff, NativeSelection.Kept w recs ⟨ns.sel.cleared, handoff⟩ :=
    hkept.cleared
  unfold NativeSelection.pointStates
  cases hseeks : n.seeks ns.sel.plan ns.sel.signals t with
  | false => exact ⟨ns, none, rfl, hkept, rfl, fun states h => by cases h⟩
  | true =>
    have hbits : ns.sel.plan.bases.all (fun base => base.width.isSome) = true := by
      unfold Native.seeks at hseeks
      simp only [Bool.and_eq_true] at hseeks
      exact hseeks.1.2
    have hpersistent : ∀ s ∈ ns.sel.signals, s.encoding ≠ .event := by
      intro s hs hevent
      have hwidth := hplans.toFits.width_isSome hbits (hplans.mem_retained hs)
      simp [Signal.width, hevent] at hwidth
    have hstates := hplans.states (w.heldSlot (selected ns.sel.plan.bases recs) t)
    rw [Bool.not_true, if_neg (by simp)]
    split
    · next replay hreplay =>
      -- The state of the tick is kept already.
      obtain ⟨hsome, hsame⟩ := Option.filter_eq_some_iff.1 hreplay
      simp only [Bool.and_eq_true, decide_eq_true_eq] at hsame
      obtain ⟨⟨⟨-, rfl⟩, hstart⟩, -⟩ := hsame
      have hvalid := hkept.sound.replay replay hsome
      rw [hkept.waveform] at hvalid
      rw [hvalid.held hplans.toFits (hkept.ended.snapshot replay hsome).1 hstart, hstates]
      exact ⟨ns, _, rfl, hkept, rfl, fun states h => by cases h; exact ⟨hpersistent, rfl⟩⟩
    · split
      · exact ⟨ns, none, rfl, hkept, rfl, fun states h => by cases h⟩
      · obtain ⟨handoff, answer, hread, hslots⟩ := slotsAt_served hrecorded hserves hfallback
          hkept.waveform hplans.toFits hseeks ns.handoff prepareFallback
        rw [hread]
        cases answer with
        | none => exact ⟨_, none, rfl, hcleared handoff, rfl, fun states h => by cases h⟩
        | some slots =>
          obtain rfl := hslots slots rfl
          dsimp only
          rw [hstates]
          refine ⟨_, _, rfl, ?_, ?_, fun states h => by cases h; exact ⟨hpersistent, rfl⟩⟩
          · split
            · refine ⟨hkept.waveform, ⟨hkept.sound.plans, fun replay hreplay => ?_,
                fun replay hreplay => (by cases hreplay)⟩, ⟨fun replay hreplay => ?_⟩⟩
              · cases hreplay
                have hvalid := heldSlots_valid hplans.toFits hsorted t
                rw [← hkept.waveform] at hvalid
                exact hkept.waveform ▸ hvalid
              · cases hreplay
                exact ⟨rfl, cacheable_of_bits hbits⟩
            · exact hcleared handoff
          · split <;> rfl

end
end Ondas.Query
