import Ondas.Query.Snapshots

/-!
# Traversals of a served stream

A selection whose snapshots are valid keeps valid snapshots over every traversal, and publishes the
ticks it would publish from the start of the stream: `readTicksFrom_succeeds` when the visitor goes
on, `readTicksFrom_stops` when it stops or the read fails. The state that chunks computed in
parallel is a valid snapshot as well (`Selection.Sound.seed`).
-/

namespace Ondas.Query

open Library
open Vcd (Position)

/-! ## The state computed in parallel -/

section
variable {w : Waveform} {plan : Plan} {whole : List Record}
  {stored : Position → List Record → Prop}

/-- Without computations every slot is a source handle. -/
theorem Computes.source_of_nil {slots : List Signal} {computations : List Computation}
    (h : Computes w slots computations) (hnil : computations = []) :
    ∀ s ∈ slots, s.computed = false := by
  induction h with
  | nil => nofun
  | source _ hc ih =>
    intro s hs
    rcases List.mem_append.1 hs with hs | hs
    · exact ih hnil s hs
    · rw [List.mem_singleton.1 hs]; exact hc
  | slice | concat => exact absurd hnil (by simp)

/-- Whole handles of one history have the same reference. -/
theorem committedAt_whole {recs : List Record} {t : Nat} {s s' : Signal} (hc : s.computed = false)
    (hc' : s'.computed = false) (hslice : s.isSlice = false) (hslice' : s'.isSlice = false)
    (hindex : s.index = s'.index) : w.committedAt recs s t = w.committedAt recs s' t := by
  have hvalue : ∀ source : Nat → Option Value, w.value source s = w.value source s' := by
    intro source
    rw [Waveform.value_source hc, Waveform.value_source hc', hindex]
    congr 1
    funext v
    rw [Waveform.project_whole hslice, Waveform.project_whole hslice']
  have hat : w.valueAt recs s = w.valueAt recs s' := funext fun t => hvalue _
  have hentering : w.enteringAt recs s = w.enteringAt recs s' := funext fun t => hvalue _
  unfold Waveform.committedAt
  rw [hat, hentering]

/-- An event history has no persistent state. -/
theorem committedAt_event {recs : List Record} {t : Nat} {s : Signal} (htyped : Typed w recs)
    (hvalid : w.Valid s) (hc : s.computed = false) (hevent : s.encoding = .event) :
    w.committedAt recs s t = none := by
  have hnone : w.valueAt recs s t = none := by
    rw [Waveform.valueAt, Waveform.value_source hc, Option.map_eq_none_iff]
    rw [Option.eq_none_iff_forall_ne_some]
    intro v hv
    obtain ⟨-, hnot, e, he, hfits⟩ := htyped.valueAt t _ v hv
    rw [hvalid.encoding hc, hvalid.event.1 hevent, Option.some.injEq] at he
    subst he
    cases v with
    | event occurrences => cases hnot
    | bits | real | string => cases hfits
  unfold Waveform.committedAt committed
  rw [hnone]
  rfl

/-- A slot of whole handles after some histories are filled: the state of its history if it was
among them. -/
theorem foldl_seedSlot (hfits : plan.Fits w) (hnil : plan.computations = [])
    (hwhole : ∀ s ∈ plan.retained, s.isSlice = false) (htyped : Typed w whole) {t : Nat}
    {bases : List Signal} (hbases : ∀ b ∈ bases, b ∈ plan.bases) {slots : List Slot}
    (hslots : slots.length = plan.retained.length)
    (hstate : ∀ i s, plan.retained[i]? = some s → slotAt slots i = .empty ∨
      slotAt slots i = { Slot.empty with state := stateOf (w.committedAt whole s t) }) :
    ∀ i s, plan.retained[i]? = some s →
      ((bases.map (w.sampleAt whole t)).foldl (seedSlot plan) slots)[i]? =
        some (if s.index ∈ bases.map Signal.index then
          { Slot.empty with state := stateOf (w.committedAt whole s t) } else slotAt slots i) := by
  have hsource := hfits.computes.source_of_nil hnil
  induction bases generalizing slots with
  | nil =>
    intro i s hs
    obtain ⟨hlt, -⟩ := List.getElem?_eq_some_iff.1 hs
    have hget : slots[i]? = some slots[i] := List.getElem?_eq_getElem (by omega)
    rw [List.map_nil, List.foldl_nil, List.map_nil, if_neg (by simp), slotAt, hget]
    rfl
  | cons b bases ih =>
    obtain ⟨o, ho, hoc, hbase⟩ := hfits.sources b (hbases b (by simp))
    have hvalid : w.Valid b := by rw [hbase]; exact (hfits.valid o ho).base
    have hbc : b.computed = false := by rw [hbase]; exact hoc
    have hbslice : b.isSlice = false := by rw [hbase]; exact Waveform.base_isSlice o
    -- The slots of this history get its state, if it has one.
    have hfirst : ∀ i s, plan.retained[i]? = some s →
        (seedSlot plan slots (w.sampleAt whole t b))[i]? = some (if s.index = b.index then
          { Slot.empty with state := stateOf (w.committedAt whole s t) } else slotAt slots i) := by
      intro i s hs
      obtain ⟨hlt, -⟩ := List.getElem?_eq_some_iff.1 hs
      have hget : slots[i]? = some (slotAt slots i) := by
        rw [slotAt, List.getElem?_eq_getElem (by omega)]
        rfl
      have hmem := List.mem_of_getElem? hs
      have hsame : s.index = b.index → w.committedAt whole s t = w.committedAt whole b t :=
        committedAt_whole (hsource s hmem) hbc (hwhole s hmem) hbslice
      have hentry : i ∈ plan.entries b.index ↔ s.index = b.index := by
        rw [hfits.entries]
        constructor
        · rintro ⟨s', hs', -, hindex⟩
          rw [hs, Option.some.injEq] at hs'
          exact hs' ▸ hindex
        · exact fun hindex => ⟨s, hs, hsource s hmem, hindex⟩
      have hunknown : w.committedAt whole b t = none → slots[i]? = some (if s.index = b.index then
          { Slot.empty with state := stateOf (w.committedAt whole s t) } else slotAt slots i) := by
        intro hnone
        rw [hget]
        split
        · next hindex =>
          have hold := hstate i s hs
          rw [hsame hindex, hnone] at hold
          rw [hsame hindex, hnone]
          rcases hold with hold | hold
          · rw [hold]; rfl
          · rw [hold]
        · rfl
      unfold Waveform.sampleAt
      split
      · next hevent =>
        exact hunknown (committedAt_event htyped hvalid hbc hevent)
      · cases hcommitted : w.committedAt whole b t with
        | none => exact hunknown hcommitted
        | some entry =>
          obtain ⟨v, changed⟩ := entry
          dsimp only [seedSlot]
          rw [modifyAll_getElem? (hfits.entries_nodup _), hget, Option.map_some]
          simp only [hentry]
          split
          · next hindex =>
            rw [hsame hindex, hcommitted]
            rcases hstate i s hs with hold | hold <;> (rw [hold]; rfl)
          · rfl
    have hlength : (seedSlot plan slots (w.sampleAt whole t b)).length = plan.retained.length := by
      rw [← hslots]
      unfold seedSlot
      split
      · exact modifyAll_length ..
      · rfl
    intro i s hs
    have hafter := ih (fun b' hb' => hbases b' (List.mem_cons_of_mem _ hb')) hlength
      (fun j s' hs' => by
        rw [slotAt, hfirst j s' hs', Option.getD_some]
        split
        · exact .inr rfl
        · exact hstate j s' hs') i s hs
    rw [List.map_cons, List.foldl_cons, hafter, slotAt, hfirst i s hs, Option.getD_some]
    congr 1
    by_cases hindex : s.index = b.index
    · simp [hindex]
    · simp [hindex]

/-- Past an end a slot holds the state that the tick of the end leaves. -/
theorem openSlot_past {recs : List Record} {stop : Nat} {s : Signal} (hvalid : w.Valid s)
    (hle : ∀ r ∈ recs, r.time ≤ stop) : w.openSlot recs (stop + 1) s =
      { Slot.empty with state := stateOf (w.committedAt recs s stop) } := by
  have hidle := openSlot_idle (t := stop + 1) hvalid fun r hr => by have := hle r hr; omega
  have hopen : w.openSlot recs (stop + 1) s = ⟨stateOf (w.enteredAt recs s (stop + 1)),
    (w.openSlot recs (stop + 1) s).pending, false, (w.openSlot recs (stop + 1) s).events⟩ := rfl
  rw [hopen, hidle.1, hidle.2, Waveform.enteredAt_succ]
  rfl

/-- The records past an end do not count up to the end. -/
theorem committedAt_upTo {recs : List Record} {stop : Nat} {s : Signal}
    (hsorted : Chronological recs) : w.committedAt recs s stop =
      w.committedAt (upTo stop recs) s stop := by
  conv_lhs => rw [← upTo_append_past stop recs]
  exact Waveform.committedAt_append (past_gt hsorted)

/-- There is a seed for each slot. -/
theorem seedSlots_length (samples : List Sample) :
    (seedSlots plan samples).length = plan.retained.length := by
  have hfold : ∀ slots, (samples.foldl (seedSlot plan) slots).length = slots.length := by
    induction samples with
    | nil => exact fun _ => rfl
    | cons sample samples ih =>
      intro slots
      rw [List.foldl_cons, ih]
      unfold seedSlot
      split
      · exact modifyAll_length ..
      · rfl
  rw [seedSlots, hfold, List.length_replicate]

/-- The slots a parallel state fills are those of the records up to its end. -/
theorem seedSlots_eq (hfits : plan.Fits w) (hnil : plan.computations = [])
    (hwhole : ∀ s ∈ plan.retained, s.isSlice = false) (hsorted : Chronological whole)
    (htyped : Typed w whole) (t : Nat) :
    seedSlots plan (plan.bases.map (w.sampleAt whole t)) =
      plan.retained.map (w.openSlot (upTo t whole) (t + 1)) := by
  have hlen : (List.replicate plan.retained.length Slot.empty).length = plan.retained.length :=
    List.length_replicate
  have hempty : ∀ i, slotAt (List.replicate plan.retained.length Slot.empty) i = .empty := by
    intro i
    rw [slotAt, List.getElem?_replicate]
    split <;> rfl
  refine List.ext_getElem? fun i => ?_
  rw [List.getElem?_map]
  cases hs : plan.retained[i]? with
  | none =>
    rw [Option.map_none, List.getElem?_eq_none_iff]
    rw [seedSlots_length]
    exact List.getElem?_eq_none_iff.1 hs
  | some s =>
    have hmem := List.mem_of_getElem? hs
    have hin : s.index ∈ plan.bases.map Signal.index := by
      rw [← hfits.bases, Option.isSome_iff_exists]
      have hentry : i ∈ plan.entries s.index :=
        (hfits.entries _ _).2 ⟨s, hs, hfits.computes.source_of_nil hnil s hmem, rfl⟩
      unfold Plan.entries at hentry
      cases hgroup : plan.groups s.index with
      | none => rw [hgroup] at hentry; cases hentry
      | some slots => exact ⟨slots, rfl⟩
    rw [seedSlots, foldl_seedSlot hfits hnil hwhole htyped (fun _ hb => hb) hlen
      (fun i _ _ => .inl (hempty i)) i s hs, if_pos hin, Option.map_some,
      openSlot_past (hfits.valid s hmem) upTo_le, ← committedAt_upTo hsorted]

/-- Seeding keeps the snapshots of a selection valid, and nothing else changes. -/
theorem Selection.Sound.seed {sel : Selection} {src : Source} (h : sel.Sound whole stored)
    (hcarries : src.Carries sel.waveform sel.plan whole stored) (sizes : Sizes)
    (start : Option Nat) :
    (sel.seed sizes src start).Sound whole stored := by
  unfold Selection.seed
  split
  · next hcond =>
    simp only [Bool.and_eq_true, Bool.not_eq_true'] at hcond
    obtain ⟨⟨⟨hnil, -⟩, -⟩, hslices⟩ := hcond
    split
    · exact h
    · next start hstart =>
      obtain ⟨-, hpos⟩ := Option.filter_eq_some_iff.1 hstart
      have hpos : 0 < start := by simpa using hpos
      split
      · exact h
      · next samples position hpre =>
        dsimp only
        split
        · obtain ⟨hstored, htime, hsamples⟩ := hcarries.parallelPrefix _ _ _ hpre
          have hslots := seedSlots_eq h.plans.toFits (by simpa using hnil)
            (fun s hs => by simpa using List.any_eq_false.1 hslices s hs) hcarries.chronological
            hcarries.typed (start - 1)
          rw [← hsamples, Nat.sub_add_cancel hpos] at hslots
          have hlt : ∀ r ∈ upTo (start - 1) whole, r.time < start := fun r hr => by
            have := upTo_le r hr
            omega
          refine ⟨h.plans, h.replay, fun replay hreplay => ?_⟩
          cases hreplay
          exact ⟨upTo (start - 1) whole, past (start - 1) whole, (upTo_append_past _ _).symm,
            hstored, htime, hslots, fun r hr => (hlt r hr).le,
            fun r hr => by have := past_gt hcarries.chronological r hr; dsimp only; omega, upTo_le,
            .inr ⟨rfl, hlt⟩⟩
        · exact h
  · exact h

/-- Seeding changes the checkpoint only. -/
theorem Selection.seed_cleared (sizes : Sizes) (src : Source) (sel : Selection)
    (start : Option Nat) : (sel.seed sizes src start).cleared = sel.cleared := by
  unfold Selection.seed
  split
  · split
    · rfl
    · split
      · rfl
      · dsimp only
        split <;> rfl
  · rfl

end

/-! ## What a read proves -/

/-- What a read takes of its stream: the records, the ticks they complete, and why it fails. A
failing delivery still completes the tick before it, and only a good end completes the last tick. -/
inductive Proves (backend : String) (plan : Plan) (before : List Record) (pending : Option Nat)
    (ds : List Delivery) :
    Except Error (Option Position) → List Record → List Nat → Option Error → Prop
  | failed {pre post : List Delivery} {d : Delivery} {e : Error}
      (ending : Except Error (Option Position)) : ds = pre ++ d :: post →
      Clean backend plan before pre → d.failure backend plan (before ++ decoded pre) = some e →
      Proves backend plan before pending ds ending (decoded pre)
        (completedTicks pending pre ++ (d.closed (pendingTick pending pre)).toList) (some e)
  | cut (e : Error) : Clean backend plan before ds →
      Proves backend plan before pending ds (.error e) (decoded ds) (completedTicks pending ds)
        (some e)
  | ended (final : Option Position) : Clean backend plan before ds →
      Proves backend plan before pending ds (.ok final) (decoded ds)
        (completedTicks pending ds ++ (pendingTick pending ds).toList) none

/-- The outcome of a visit that may have gone through to a failure. -/
def failing {B : Type} : Except Error (ControlFlow B) → Option Error → Except Error (ControlFlow B)
  | .ok .continue, some e => .error e
  | outcome, _ => outcome

/-- A stream is clean or fails at a delivery. -/
theorem clean_or_fails (backend : String) (plan : Plan) (before : List Record)
    (ds : List Delivery) : Clean backend plan before ds ∨ ∃ pre d post e, ds = pre ++ d :: post ∧
      Clean backend plan before pre ∧ d.failure backend plan (before ++ decoded pre) = some e := by
  induction ds generalizing before with
  | nil => exact .inl trivial
  | cons d ds ih =>
    cases hd : d.failure backend plan before with
    | some e => exact .inr ⟨[], d, ds, e, rfl, trivial, by simpa [decoded] using hd⟩
    | none =>
      rcases ih (before ++ d.record?.toList) with hclean | ⟨pre, d', post, e, rfl, hclean, hfails⟩
      · exact .inl ⟨hd, hclean⟩
      · refine .inr ⟨d :: pre, d', post, e, rfl, ⟨hd, hclean⟩, ?_⟩
        rw [decoded_cons, ← List.append_assoc]
        exact hfails

theorem decoded_append (ds ds' : List Delivery) : decoded (ds ++ ds') = decoded ds ++ decoded ds' :=
  List.filterMap_append

/-- No delivery of a clean stream fails. -/
theorem Clean.failure {backend : String} {plan : Plan} {before : List Record}
    {pre post : List Delivery} {d : Delivery} (h : Clean backend plan before (pre ++ d :: post)) :
    d.failure backend plan (before ++ decoded pre) = none := by
  induction pre generalizing before with
  | nil => simpa [decoded] using h.1
  | cons d' pre ih =>
    rw [decoded_cons, ← List.append_assoc]
    exact ih h.2

/-- Every read proves something. -/
theorem Proves.exists (backend : String) (plan : Plan) (before : List Record)
    (pending : Option Nat) (ds : List Delivery) (ending : Except Error (Option Position)) :
    ∃ recs ticks failure, Proves backend plan before pending ds ending recs ticks failure := by
  rcases clean_or_fails backend plan before ds with hclean | ⟨pre, d, post, e, hds, hclean, hfails⟩
  · cases ending with
    | error e => exact ⟨_, _, _, .cut e hclean⟩
    | ok final => exact ⟨_, _, _, .ended final hclean⟩
  · exact ⟨_, _, _, .failed ending hds hclean hfails⟩

section
variable {σ B : Type} {w : Waveform} {whole : List Record} {stored : Position → List Record → Prop}
  {sizes : Sizes} {src : Source} {start : Option Nat} {stop : Nat} {visitor : TickVisitor σ B}
  {c c' : σ} {outcome : Except Error (ControlFlow B)} {sel sel₁ : Selection}
  {done rest recs : List Record} {t : Nat} {ds : List Delivery} {ticks : List Nat}

/-- A traversal that its visitor or its read stops: the visitor has seen the ticks the read proves
complete, and no snapshot is left. -/
theorem readTicksFrom_stops {ending : Except Error (Option Position)} {failure : Option Error}
    (hseed : sel.seed sizes src start = sel₁) (hfits : sel₁.plan.Fits w)
    (hstarts : StartsAt w sel₁.plan whole stored start stop (sel₁.tally start stop c)
      ((sel₁.resumed start stop).map Replay.position) done rest t)
    (hanswers : src.Answers sel₁.plan.bases stop ((sel₁.resumed start stop).map Replay.position) ds
      ending)
    (hordered : Ordered t ds)
    (hproves : Proves src.backend sel₁.plan done (sel₁.tally start stop c).pendingTime ds
      ending recs
      ticks failure)
    (hsorted : Chronological (done ++ recs)) (htyped : Typed w (done ++ recs))
    (hvisit : sweep (shown start visitor) c (views w sel₁.plan (done ++ recs) ticks) =
      (c', outcome))
    (hstop : outcome = .ok .continue → failure.isSome = true) :
    ∃ slots, sel.readTicksFrom sizes src start stop visitor c =
      (sel.cleared, slots, c', failing outcome failure) := by
  have hcleared : sel.cleared = sel₁.cleared := by rw [← hseed, Selection.seed_cleared]
  have hread := hanswers (consume ⟨sel₁.plan, sizes, src.backend, start, visitor⟩)
    (sel₁.tally start stop c)
  -- The read breaks: the traversal ends with the outcome of its callback.
  have hbreak : ∀ st (outcome' : Except Error (ControlFlow B)), st.visited = c' →
      visit (consume ⟨sel₁.plan, sizes, src.backend, start, visitor⟩) (sel₁.tally start stop c) ds =
        (st, .break outcome') → outcome' = failing outcome failure →
      ∃ slots, sel.readTicksFrom sizes src start stop visitor c =
        (sel.cleared, slots, c', failing outcome failure) := by
    rintro st outcome' hvisited hrun rfl
    rw [hrun] at hread
    refine ⟨st.work.1, ?_⟩
    unfold Selection.readTicksFrom
    simp only [hseed, hread, hvisited, hcleared]
  by_cases hout : outcome = .ok .continue
  · subst hout
    cases hproves with
    | failed _ hds hclean hfails =>
      subst hds
      obtain ⟨st, hrun, hvisited⟩ := consume_failure
        ⟨sel₁.plan, sizes, src.backend, start, visitor⟩ hfits hstarts.holding hordered
        hsorted htyped hclean hfails hvisit
      exact hbreak st _ hvisited hrun rfl
    | cut e hclean =>
      obtain ⟨st, t', hrun, -, -, hvisited, -⟩ := consume_all
         ⟨sel₁.plan, sizes, src.backend, start, visitor⟩ hfits hstarts.holding
        (by rwa [List.append_nil]) hsorted htyped hclean hvisit
      rw [hrun] at hread
      refine ⟨st.work.1, ?_⟩
      unfold Selection.readTicksFrom
      simp only [hseed, hread, hvisited, hcleared, failing]
    | ended => exact absurd (hstop rfl) (by simp)
  · have hfailing : failing outcome failure = outcome := by
      rcases outcome with e | _ | b
      · rfl
      · exact absurd rfl hout
      · rfl
    cases hproves with
    | failed _ hds hclean hfails =>
      subst hds
      obtain ⟨st, hrun, hvisited⟩ := consume_failure_stop
        ⟨sel₁.plan, sizes, src.backend, start, visitor⟩ hfits hstarts.holding hordered
        hsorted htyped hclean hvisit hout
      exact hbreak st _ hvisited hrun hfailing.symm
    | cut e hclean =>
      obtain ⟨st, hrun, hvisited⟩ := consume_all_stop
        ⟨sel₁.plan, sizes, src.backend, start, visitor⟩ hfits hstarts.holding hordered
        hsorted htyped hclean hvisit hout
      exact hbreak st _ hvisited hrun hfailing.symm
    | ended final hclean =>
      rw [views_concat] at hvisit
      rcases hfirst : sweep (shown start visitor) c (views w sel₁.plan (done ++ decoded ds)
        (completedTicks (sel₁.tally start stop c).pendingTime ds)) with ⟨c₁, outcome₁⟩
      by_cases hout₁ : outcome₁ = .ok .continue
      · subst hout₁
        obtain ⟨st, t', hrun, hholds, -, hvisited, hpending, -⟩ := consume_all
           ⟨sel₁.plan, sizes, src.backend, start, visitor⟩ hfits
          hstarts.holding (by rwa [List.append_nil]) hsorted htyped hclean hfirst
        rw [sweep_append_continue hfirst, ← hvisited, ← hpending] at hvisit
        -- The last tick is completed after the read.
        cases hlast : st.pendingTime with
        | none =>
          rw [hlast] at hvisit
          cases hvisit
          exact absurd rfl hout
        | some last =>
          have hlast' : last = t' := by
            rcases hholds.pending with hsome | ⟨hnone, -⟩
            · rw [hlast, Option.some.injEq] at hsome; exact hsome
            · rw [hlast] at hnone; cases hnone
          subst hlast'
          rw [hlast] at hvisit
          obtain ⟨st', hcomplete, hvisited', -⟩ := complete_holds
            ⟨sel₁.plan, sizes, src.backend, start, visitor⟩ hfits hsorted htyped
            hholds.ready hholds.le hvisit
          rw [hrun] at hread
          refine ⟨st'.work.1, ?_⟩
          unfold Selection.readTicksFrom
          simp only [hseed, hread, hlast, hcomplete, hcleared, hfailing]
          rcases outcome with e | _ | b
          · simp only [hvisited']
          · exact absurd rfl hout
          · simp only [hvisited']
      · rw [sweep_append_stop hfirst hout₁] at hvisit
        cases hvisit
        obtain ⟨st, hrun, hvisited⟩ := consume_all_stop
          ⟨sel₁.plan, sizes, src.backend, start, visitor⟩ hfits hstarts.holding hordered
          hsorted htyped hclean hfirst hout
        exact hbreak st _ hvisited hrun hfailing.symm

/-! ## What a traversal leaves -/

/-- The tick pending after a stream is not before its records. -/
theorem Ordered.le_pending {t τ : Nat} {pending : Option Nat} {ds : List Delivery}
    (hordered : Ordered t ds) (hpending : pending = none ∨ pending = some t)
    (h : pendingTick pending ds = some τ) : t ≤ τ ∧ ∀ r ∈ decoded ds, r.time ≤ τ := by
  induction ds generalizing t pending with
  | nil =>
    rcases hpending with rfl | rfl
    · cases h
    · cases h; exact ⟨Nat.le_refl _, nofun⟩
  | cons d ds ih =>
    cases d with
    | tick time =>
      obtain ⟨hle, hrest⟩ := ih hordered.2 (.inl rfl) h
      refine ⟨by have := hordered.1; omega, fun r hr => hrest r ?_⟩
      simpa [Delivery.record?] using hr
    | record base value time position =>
      obtain ⟨hle, hrest⟩ := ih hordered.2 (.inr rfl) h
      refine ⟨Nat.le_trans hordered.1 hle, fun r hr => ?_⟩
      rw [decoded_cons] at hr
      rcases List.mem_append.1 hr with hr | hr
      · cases value with
        | error e => cases hr
        | ok v =>
          rw [show r = ⟨base, time, v⟩ by simpa [Delivery.record?] using hr]
          exact hle
      · exact hrest r hr

/-- Without tick notifications a tick is pending after the first record. -/
theorem pendingTick_none {pending : Option Nat} {ds : List Delivery} (hticks : ∀ τ, .tick τ ∉ ds)
    (h : pendingTick pending ds = none) : ds = [] := by
  induction ds generalizing pending with
  | nil => rfl
  | cons d ds ih =>
    have hrest := ih (fun τ hτ => hticks τ (List.mem_cons_of_mem _ hτ)) h
    subst hrest
    cases d with
    | tick τ => exact absurd (by simp) (hticks τ)
    | record base value time position => cases h

/-- After every record the slots do not depend on the tick. -/
theorem openSlot_quiet {plan : Plan} (hfits : plan.Fits w) {s t' : Nat}
    (hlt : ∀ r ∈ recs, r.time < s) (hlt' : ∀ r ∈ recs, r.time < t') :
    plan.retained.map (w.openSlot recs t') = plan.retained.map (w.openSlot recs s) := by
  have hadvance : ∀ {s t'}, s ≤ t' → (∀ r ∈ recs, r.time < s) →
      plan.retained.map (w.openSlot recs t') = plan.retained.map (w.openSlot recs s) := by
    intro s t' hst hlt
    have hready : Ready w plan recs s
        (plan.retained.map (w.openSlot recs s), List.range plan.retained.length) :=
      ⟨rfl, fun i signal hi _ => List.mem_range.2 (List.getElem?_eq_some_iff.1 hi).1⟩
    exact (hready.advance hfits hlt hst).slots.symm
  rcases Nat.le_total s t' with hst | hst
  · exact hadvance hst hlt
  · exact (hadvance hst hlt').symm

/-- A checkpoint made in a read is valid. -/
theorem MadeIn.valid {plan : Plan} {tr : Traversal σ B} (htr : tr.plan = plan)
    (hfits : plan.Fits w) {st : Tally σ} {origin final : Option Position}
    (hstarts : StartsAt w plan whole stored tr.start stop st origin done rest t)
    (hsorted : Chronological whole) (hds : Delivers stored stop rest ds final) {checkpoint : Replay}
    (h : MadeIn w tr done st.pendingTime ds checkpoint) : checkpoint.Valid w plan whole stored := by
  obtain ⟨pre, base, v, time, position, post, rfl, s, p, hstart, rfl, hle, hearly, rfl⟩ := h
  subst htr
  obtain ⟨hstored, rfl, hticks⟩ := hds.located pre base v time p post rfl
  have hordered := hds.ordered t hstarts.after
  have hpending : st.pendingTime = none ∨ st.pendingTime = some t :=
    hstarts.holding.pending.elim .inr fun hnone => .inl hnone.1
  have hsplit : whole = (done ++ decoded pre) ++
      (⟨base, p.time, v⟩ :: decoded post ++ past stop rest) := by
    have hdecoded := hds.decoded
    have happend : decoded (pre ++ .record base (.ok v) p.time (some p) :: post) =
        decoded pre ++ (⟨base, p.time, v⟩ :: decoded post) := by
      rw [decoded, List.filterMap_append]
      exact congrArg _ (decoded_cons _ _)
    rw [happend] at hdecoded
    calc whole = done ++ (upTo stop rest ++ past stop rest) := by
          rw [upTo_append_past, hstarts.split]
      _ = _ := by
          rw [← hdecoded]
          simp [List.append_assoc]
  -- The window starts after every record before the checkpoint.
  have hlt : ∀ r ∈ done ++ decoded pre, r.time < s := by
    cases htick : pendingTick st.pendingTime pre with
    | none =>
      have hnil := pendingTick_none hticks htick
      subst hnil
      intro r hr
      exact hstarts.early htick s hstart r (by simpa [decoded] using hr)
    | some τ =>
      rw [htick] at hearly
      have hτ : τ < s := by simpa using hearly
      obtain ⟨hge, hrest⟩ := hordered.left.le_pending hpending htick
      intro r hr
      rcases List.mem_append.1 hr with hr | hr
      · have := hstarts.holding.le r hr
        omega
      · have := hrest r hr
        omega
  refine ⟨done ++ decoded pre, _, hsplit, hstored, Nat.le_refl _, ?_, fun r hr => (hlt r hr).le,
    fun r hr => ?_, fun r hr => ?_, .inr ⟨rfl, hlt⟩⟩
  · exact openSlot_quiet hfits hlt fun r hr => Nat.lt_of_lt_of_le (hlt r hr) hle
  · have hchain : Chronological (⟨base, p.time, v⟩ :: decoded post ++ past stop rest) :=
      (hsplit ▸ hsorted).sublist (List.sublist_append_right _ _)
    rcases List.mem_cons.1 hr with rfl | hr
    · exact hle
    · exact Nat.le_trans hle ((List.pairwise_cons.1 hchain).1 r hr)
  · have := hlt r hr
    dsimp only
    omega

/-- The snapshot at the end of a read is valid. -/
theorem Delivers.snapshot {plan : Plan} {tr : Traversal σ B} {st st' : Tally σ} {t' : Nat}
    {origin : Option Position} {p : Position}
    (hstarts : StartsAt w plan whole stored start stop st origin done rest t)
    (hsorted : Chronological whole) (hds : Delivers stored stop rest ds (some p))
    (hrun : visit (consume tr) st ds = (st', .continue))
    (hholds : Holding w plan (done ++ Query.decoded ds) t' st')
    (hpending : st'.pendingTime = pendingTick st.pendingTime ds) :
    Replay.Valid w plan whole stored
      { position := p, start := st'.pendingTime.getD t, stop := stop, time := st'.pendingTime,
        slots := st'.work.1 } := by
  obtain ⟨hstored, htime, hticks⟩ := hds.final p rfl
  have hpast := hstarts.upTo_eq.2
  cases hlast : st'.pendingTime with
  | none =>
    -- Nothing was delivered: the stream is where the read started.
    rw [hlast] at hpending
    have hnil := pendingTick_none hticks hpending.symm
    subst hnil
    cases hrun
    have hrest : past stop rest = rest :=
      calc past stop rest = upTo stop rest ++ past stop rest := by rw [← hds.decoded]; rfl
        _ = rest := upTo_append_past stop rest
    refine ⟨done, rest, hstarts.split, hrest ▸ hstored, htime, hstarts.holding.ready.slots,
      hstarts.holding.le, hstarts.after, hstarts.done_le, .inr ⟨rfl, ?_⟩⟩
    rcases hstarts.holding.pending with hsome | ⟨-, hlt⟩
    · rw [hlast] at hsome; cases hsome
    · exact hlt
  | some last =>
    have hlast' : last = t' := by
      rcases hholds.pending with hsome | ⟨hnone, -⟩
      · rw [hlast, Option.some.injEq] at hsome; exact hsome
      · rw [hlast] at hnone; cases hnone
    subst hlast'
    rw [hds.decoded, ← hstarts.upTo_eq.1] at hholds
    have hmem : ∃ r ∈ upTo stop whole, r.time = last := by
      have hin : last ∈ completedTicks st.pendingTime ds ++
          (pendingTick st.pendingTime ds).toList := by
        rw [← hpending, hlast]
        simp
      rw [hstarts.upTo_eq.1]
      rcases (mem_completedTicks hds.decodes).1 hin with hsome | ⟨r, hr, htime⟩
      · obtain ⟨r, hr, htime⟩ := hstarts.pending last hsome
        exact ⟨r, List.mem_append_left _ hr, htime⟩
      · exact ⟨r, List.mem_append_right _ (hds.decoded ▸ hr), htime⟩
    refine ⟨upTo stop whole, past stop whole, (upTo_append_past _ _).symm, hpast ▸ hstored, htime,
      hholds.ready.slots, hholds.le, fun r hr => ?_, upTo_le, .inl ⟨rfl, hmem⟩⟩
    obtain ⟨r', hr', rfl⟩ := hmem
    exact (Nat.lt_of_le_of_lt (upTo_le r' hr') (past_gt hsorted r hr)).le

/-- The slots of some ticks only. -/
theorem views_filter {plan : Plan} (p : Nat → Bool) (ticks : List Nat) :
    (views w plan recs ticks).filter (fun x => p x.1) = views w plan recs (ticks.filter p) :=
  List.filter_map

/-- A served read visits the ticks of the window. -/
theorem StartsAt.sweep_published {plan : Plan} {st : Tally σ} {origin final : Option Position}
    (h : StartsAt w plan whole stored start stop st origin done rest t)
    (hsorted : Chronological whole) (hds : Delivers stored stop rest ds final)
    (visitor : TickVisitor σ B) (c : σ) :
    sweep (shown start visitor) c (views w plan (done ++ decoded ds)
        (completedTicks st.pendingTime ds ++ (pendingTick st.pendingTime ds).toList)) =
      sweep visitor c (views w plan (upTo stop whole)
        (Query.published (upTo stop whole) start)) := by
  rw [sweep_shown, views_filter (fun τ => start.all fun start => decide (start ≤ τ)),
    h.published hsorted hds, hds.decoded, h.upTo_eq.1]

/-- A selection reads from where it starts. -/
theorem Source.Reads.starts {plan : Plan} (hreads : src.Reads w plan whole stored) {st : Tally σ}
    {origin : Option Position} (h : StartsAt w plan whole stored start stop st origin done rest t) :
    ∃ ds final, src.Answers plan.bases stop origin ds (.ok final) ∧
      Delivers stored stop rest ds final := by
  rcases h.origin with ⟨rfl, rfl⟩ | ⟨p, rfl, hstored, htime⟩
  · obtain ⟨ds, final, hanswers, hds⟩ := hreads.fresh stop
    have hwhole : whole = rest := h.split
    exact ⟨ds, final, hanswers, hwhole ▸ hds⟩
  · exact hreads.resume p done rest stop h.split hstored htime

/-- A selection tries to read from where it starts. -/
theorem Source.Tries.starts {plan : Plan} (htries : src.Tries w plan whole stored) {st : Tally σ}
    {origin : Option Position} (h : StartsAt w plan whole stored start stop st origin done rest t) :
    ∃ ds later ending, src.Answers plan.bases stop origin ds ending ∧
      Attempts stored stop rest later ds ending := by
  rcases h.origin with ⟨rfl, rfl⟩ | ⟨p, rfl, hstored, htime⟩
  · obtain ⟨ds, later, ending, hanswers, hds⟩ := htries.fresh stop
    have hwhole : whole = rest := h.split
    exact ⟨ds, later, ending, hanswers, hwhole ▸ hds⟩
  · exact htries.resume p done rest stop h.split hstored htime

/-- A read delivers one list and ends in one way: a callback that collects sees them. -/
theorem Source.Answers.unique {bases : List Signal} {origin : Option Position}
    {ds ds' : List Delivery} (ending ending' : Except Error (Option Position))
    (h : src.Answers bases stop origin ds ending) (h' : src.Answers bases stop origin ds' ending') :
    ds = ds' ∧ ending = ending' := by
  have heq := (h (B := Unit) (fun log d => (log ++ [d], .continue)) []).symm.trans
    (h' (B := Unit) (fun log d => (log ++ [d], .continue)) [])
  rw [visit_push, visit_push, List.nil_append, List.nil_append] at heq
  rcases ending with e | p <;> rcases ending' with e' | p'
  · cases heq
    exact ⟨rfl, rfl⟩
  · cases heq
  · cases heq
  · cases heq
    exact ⟨rfl, rfl⟩

/-- A clean stream decodes. -/
theorem Clean.decodes {backend : String} {plan : Plan} {before : List Record}
    (h : Clean backend plan before ds) : Decodes ds := by
  induction ds generalizing before with
  | nil => nofun
  | cons d ds ih =>
    intro d' hd' base e time p heq
    rcases List.mem_cons.1 hd' with rfl | hd'
    · subst heq
      cases h.1
    · exact ih h.2 d' hd' base e time p heq

/-- Going on through two lists of ticks is going on through each. -/
theorem sweep_continue_append {xs ys : List (Nat × List Slot)}
    (h : sweep visitor c (xs ++ ys) = (c', .ok .continue)) :
    ∃ c₁, sweep visitor c xs = (c₁, .ok .continue) ∧ sweep visitor c₁ ys = (c', .ok .continue) := by
  rcases hfirst : sweep visitor c xs with ⟨c₁, outcome₁⟩
  by_cases hout : outcome₁ = .ok .continue
  · subst hout
    exact ⟨c₁, rfl, (sweep_append_continue hfirst).symm.trans h⟩
  · rw [sweep_append_stop hfirst hout] at h
    cases h
    exact absurd rfl hout

/-- A traversal whose read does not fail and whose visitor goes on: it has seen the ticks of its
window, and the slots and the snapshots are those of the stream. -/
theorem readTicksFrom_succeeds {final : Option Position} (hseed : sel.seed sizes src start = sel₁)
    (hsound : sel₁.Sound whole stored) (hsorted : Chronological whole)
    (htyped : Typed sel₁.waveform whole)
    (hstarts : StartsAt sel₁.waveform sel₁.plan whole stored start stop (sel₁.tally start stop c)
      ((sel₁.resumed start stop).map Replay.position) done rest
        (((sel₁.resumed start stop).map Replay.start).getD 0))
    (hanswers : src.Answers sel₁.plan.bases stop ((sel₁.resumed start stop).map Replay.position) ds
      (.ok final))
    (hds : Delivers stored stop rest ds final) (hclean : Clean src.backend sel₁.plan done ds)
    (hvisit : sweep visitor c (views sel₁.waveform sel₁.plan (upTo stop whole)
      (published (upTo stop whole) start)) = (c', .ok .continue)) :
    ∃ sel', sel.readTicksFrom sizes src start stop visitor c =
        (sel', sel₁.plan.retained.map (sel₁.waveform.openSlot (upTo stop whole) (stop + 1)), c',
          .ok .continue) ∧
      sel'.Sound whole stored ∧ sel'.cleared = sel₁.cleared := by
  have hfits := hsound.plans.toFits
  have hordered := hds.ordered _ hstarts.after
  have hdecoded : done ++ decoded ds = upTo stop whole := by rw [hds.decoded, hstarts.upTo_eq.1]
  have hread := hanswers (consume ⟨sel₁.plan, sizes, src.backend, start, visitor⟩)
    (sel₁.tally start stop c)
  have hsorted' : Chronological (done ++ decoded ds) :=
    hdecoded ▸ hsorted.sublist (List.takeWhile_sublist _)
  have htyped' : Typed sel₁.waveform (done ++ decoded ds) := fun r hr =>
    htyped r ((List.takeWhile_sublist _).subset (hdecoded ▸ hr))
  rw [← hstarts.sweep_published hsorted hds, views_concat] at hvisit
  -- The visitor goes on over the ticks the read completes, and then over the last one.
  obtain ⟨c₁, hfirst, hlast⟩ := sweep_continue_append hvisit
  obtain ⟨st, t', hrun, hholds, -, hvisited, hpending, hcheckpoint⟩ := consume_all
     ⟨sel₁.plan, sizes, src.backend, start, visitor⟩ hfits hstarts.holding
    (by rwa [List.append_nil]) hsorted' htyped' hclean hfirst
  rw [hrun] at hread
  have hsnapshot : ∀ p, final = some p → Replay.Valid sel₁.waveform sel₁.plan whole stored
      { position := p, start := st.pendingTime.getD (((sel₁.resumed start stop).map
          Replay.start).getD 0), stop := stop, time := st.pendingTime, slots := st.work.1 } := by
    rintro p rfl
    exact hds.snapshot hstarts hsorted hrun hholds hpending
  have hmade : ∀ checkpoint, st.checkpoint = some checkpoint →
      checkpoint.Valid sel₁.waveform sel₁.plan whole stored := fun checkpoint hcp => by
    rcases hcheckpoint checkpoint hcp with hold | hmade
    · exact hsound.checkpoint checkpoint hold
    · exact hmade.valid rfl hfits hstarts hsorted hds
  have hsel : ∀ (next : Option Replay), next = final.map (fun p =>
      { position := p, start := st.pendingTime.getD (((sel₁.resumed start stop).map
          Replay.start).getD 0), stop := stop, time := st.pendingTime, slots := st.work.1 }) →
      Selection.Sound { sel₁ with replay := next, checkpoint := st.checkpoint } whole stored := by
    rintro next rfl
    refine ⟨hsound.plans, fun replay hreplay => ?_, hmade⟩
    obtain ⟨p, hp, rfl⟩ := Option.map_eq_some_iff.1 hreplay
    exact hsnapshot p hp
  refine ⟨_, ?_, hsel _ rfl, rfl⟩
  have hlt : ∀ r ∈ done ++ decoded ds, r.time < stop + 1 := fun r hr =>
    Nat.lt_succ_of_le (upTo_le r (hdecoded ▸ hr))
  rw [← hvisited, ← hpending] at hlast
  rw [← hdecoded]
  unfold Selection.readTicksFrom
  simp only [hseed, hread]
  rcases hholds.pending with hsome | ⟨hnone, hbefore⟩
  · rw [hsome] at hlast
    obtain ⟨st', hcomplete, hvisited', -, hcheckpoint', hnext⟩ := complete_holds
      ⟨sel₁.plan, sizes, src.backend, start, visitor⟩ hfits hsorted' htyped' hholds.ready
      hholds.le hlast
    simp only [hsome, hcomplete, hvisited', hcheckpoint']
    rw [(hnext rfl).slots, openSlot_quiet hfits hlt fun r hr => Nat.lt_succ_of_le (hholds.le r hr)]
  · rw [hnone] at hlast
    cases hlast
    simp only [hnone]
    rw [hholds.ready.slots, openSlot_quiet hfits hlt hbefore]

/-- A slot after a tick: the state the tick leaves, and nothing pending. -/
def Waveform.heldSlot (w : Waveform) (recs : List Record) (t : Nat) (signal : Signal) : Slot :=
  { Slot.empty with state := stateOf (w.committedAt recs signal t) }

/-- The records past an end do not change the slots of the ticks up to it. -/
theorem views_upTo {plan : Plan} (hsorted : Chronological whole) :
    views w plan (upTo stop whole) (published (upTo stop whole) start) =
      views w plan whole (published (upTo stop whole) start) := by
  have hlater : ∀ τ ∈ published (upTo stop whole) start, ∀ r ∈ past stop whole, τ < r.time := by
    intro τ hτ r hr
    obtain ⟨⟨r', hr', rfl⟩, -⟩ := mem_published.1 hτ
    exact Nat.lt_of_le_of_lt (upTo_le r' hr') (past_gt hsorted r hr)
  rw [← views_append hlater, upTo_append_past]

/-- A visitor goes on at every tick. -/
def Goes (visitor : TickVisitor σ B) : Prop := ∀ c t slots, (visitor c t slots).2 = .ok .continue

variable (start) in
/-- A visitor that never stops sees all the ticks of its window. -/
theorem sweep_goes (h : Goes visitor) (c : σ) (xs : List (Nat × List Slot)) :
    (sweep (shown start visitor) c xs).2 = .ok .continue := by
  induction xs generalizing c with
  | nil => rfl
  | cons x xs ih =>
    obtain ⟨t, slots⟩ := x
    have hstep : (shown start visitor c t slots).2 = .ok .continue := by
      unfold shown
      split
      · exact h c t slots
      · rfl
    rw [sweep]
    rcases hx : shown start visitor c t slots with ⟨d, outcome'⟩
    rw [hx] at hstep
    dsimp only at hstep
    subst hstep
    exact ih d

/-- A traversal of a stream: whatever the snapshots are, its visitor sees the ticks of the window
with the slots of the stream, until it stops; or the read fails, which a reader that does not fail
only does on an event count. -/
theorem readTicksFrom_read (htries : src.Tries sel.waveform sel.plan whole stored)
    (hsound : sel.Sound whole stored)
    (hvisit : sweep visitor c (views sel.waveform sel.plan whole
      (published (upTo stop whole) start)) = (c', outcome)) :
    (∃ sel' slots, sel.readTicksFrom sizes src start stop visitor c = (sel', slots, c', outcome) ∧
      sel'.Sound whole stored ∧ sel'.cleared = sel.cleared ∧
      (outcome = .ok .continue → slots = sel.plan.retained.map (sel.waveform.heldSlot whole stop)) ∧
      (outcome ≠ .ok .continue → sel' = sel.cleared)) ∨
    (src.Reads sel.waveform sel.plan whole stored → ¬ Counted whole) ∧
      ∃ slots c'' outcome', sel.readTicksFrom sizes src start stop visitor c =
        (sel.cleared, slots, c'', outcome') ∧ outcome' ≠ .ok .continue ∧
        (Goes visitor → ∃ e, outcome' = .error e) := by
  rw [← views_upTo htries.chronological] at hvisit
  obtain ⟨sel₁, hseed⟩ : ∃ sel₁, sel.seed sizes src start = sel₁ := ⟨_, rfl⟩
  have hcleared : sel₁.cleared = sel.cleared := by rw [← hseed, Selection.seed_cleared]
  have hwaveform : sel₁.waveform = sel.waveform := by
    have h := congrArg Selection.waveform hcleared
    exact h
  have hplan : sel₁.plan = sel.plan := by
    have h := congrArg Selection.plan hcleared
    exact h
  have hsound₁ : sel₁.Sound whole stored := hseed ▸ hsound.seed htries.toCarries sizes start
  rw [← hwaveform, ← hplan] at htries hvisit ⊢
  have hsorted := htries.chronological
  obtain ⟨done, rest, t, hstarts, ht⟩ := hsound₁.startsAt start stop c
  obtain ⟨ds, later, ending, hanswers, hattempts⟩ := htries.starts hstarts
  have hordered := hattempts.ordered t hstarts.after
  have hsublist : ∀ {recs}, recs.Sublist (decoded ds) → (done ++ recs).Sublist whole := fun h => by
    rw [hstarts.split, hattempts.split]
    exact (h.trans (List.sublist_append_left _ _)).append_left _
  -- A failing read ends the traversal with an error, if the visitor does not end it before.
  have hfails : ∀ {recs ticks e}, Proves src.backend sel₁.plan done
      (sel₁.tally start stop c).pendingTime ds ending recs ticks (some e) →
      recs.Sublist (decoded ds) → ∃ slots c'' outcome',
        sel.readTicksFrom sizes src start stop visitor c = (sel.cleared, slots, c'', outcome') ∧
          outcome' ≠ .ok .continue ∧ (Goes visitor → ∃ e, outcome' = .error e) := by
    intro recs ticks e hproves hrecs
    rcases hfirst :
      sweep (shown start visitor) c (views sel₁.waveform sel₁.plan (done ++ recs) ticks)
      with ⟨c₁, outcome₁⟩
    obtain ⟨slots, hread⟩ :=
      readTicksFrom_stops hseed hsound₁.plans.toFits hstarts hanswers hordered
      hproves (hsorted.sublist (hsublist hrecs))
      (fun r hr => htries.typed r ((hsublist hrecs).subset hr)) hfirst fun _ => rfl
    refine ⟨slots, c₁, _, hread, ?_, fun hgoes => ?_⟩
    · rcases outcome₁ with e | _ | b <;> simp [failing]
    · have hgone := sweep_goes start hgoes c
        (views sel₁.waveform sel₁.plan (done ++ recs) ticks)
      rw [hfirst] at hgone
      dsimp only at hgone
      rw [hgone]
      exact ⟨e, rfl⟩
  rcases clean_or_fails src.backend sel₁.plan done ds with
    hclean | ⟨pre, d, post, e, hsplit, hclean, hfailure⟩
  · cases hending : ending with
    | error e =>
      subst hending
      refine .inr ⟨fun hreads => ?_, hfails (.cut e hclean) (.refl _)⟩
      obtain ⟨ds', final, hanswers', -⟩ := hreads.starts hstarts
      cases (Source.Answers.unique (.error e) (.ok final) hanswers hanswers').2
    | ok final =>
      subst hending
      have hds := hattempts.ended final rfl hclean.decodes
      have hdecoded : done ++ decoded ds = upTo stop whole := by
        rw [hds.decoded, hstarts.upTo_eq.1]
      left
      by_cases hout : outcome = .ok .continue
      · subst hout
        obtain ⟨sel', hread, hsound', hcleared'⟩ := readTicksFrom_succeeds hseed hsound₁ hsorted
          htries.typed (ht ▸ hstarts) hanswers hds hclean hvisit
        refine ⟨sel', _, hread, hsound', hcleared'.trans hcleared, fun _ => ?_,
          fun h => absurd rfl h⟩
        refine List.map_congr_left fun s hs => ?_
        rw [openSlot_past (hsound₁.plans.valid s hs) upTo_le, ← committedAt_upTo hsorted,
          Waveform.heldSlot]
      · rw [← hstarts.sweep_published hsorted hds] at hvisit
        obtain ⟨slots, hread⟩ := readTicksFrom_stops hseed hsound₁.plans.toFits hstarts hanswers
          hordered (.ended final hclean) (hdecoded ▸ hsorted.sublist (List.takeWhile_sublist _))
          (fun r hr => htries.typed r ((List.takeWhile_sublist _).subset (hdecoded ▸ hr))) hvisit
          fun h => absurd h hout
        have hfailing : failing outcome none = outcome := by rcases outcome with e | _ | b <;> rfl
        rw [hfailing] at hread
        exact ⟨sel.cleared, slots, hread, ⟨hsound.plans, nofun, nofun⟩, rfl, fun h => absurd h hout,
          fun _ => rfl⟩
  · refine .inr ⟨fun hreads hcounted => ?_, hfails (.failed ending hsplit hclean hfailure) ?_⟩
    · -- A stream that counts within `u64` does not fail.
      obtain ⟨ds', final, hanswers', hds⟩ := hreads.starts hstarts
      obtain ⟨rfl, -⟩ := Source.Answers.unique ending (.ok final) hanswers hanswers'
      have hall : Clean src.backend sel₁.plan done ds :=
        hds.clean fun base τ => by rw [← hstarts.split]; exact hcounted base τ
      rw [hsplit] at hall
      rw [hall.failure] at hfailure
      cases hfailure
    · rw [hsplit, decoded_append]
      exact List.sublist_append_left _ _

/-- A traversal of a served stream: whatever the snapshots are, its visitor sees the ticks of the
window with the slots of the stream, until it stops. -/
theorem readTicksFrom_served (hserves : src.Serves sel.waveform sel.plan whole stored)
    (hsound : sel.Sound whole stored)
    (hvisit : sweep visitor c (views sel.waveform sel.plan whole
      (published (upTo stop whole) start)) = (c', outcome)) :
    ∃ sel' slots, sel.readTicksFrom sizes src start stop visitor c = (sel', slots, c', outcome) ∧
      sel'.Sound whole stored ∧ sel'.cleared = sel.cleared ∧
      (outcome = .ok .continue → slots = sel.plan.retained.map (sel.waveform.heldSlot whole stop)) ∧
      (outcome ≠ .ok .continue → sel' = sel.cleared) :=
  (readTicksFrom_read hserves.toReads.tries hsound hvisit).resolve_right fun h =>
    h.1 hserves.toReads hserves.counts

/-- Every traversal leaves valid snapshots. -/
theorem readTicksFrom_sound (htries : src.Tries sel.waveform sel.plan whole stored)
    (hsound : sel.Sound whole stored) :
    (sel.readTicksFrom sizes src start stop visitor c).1.Sound whole stored ∧
      (sel.readTicksFrom sizes src start stop visitor c).1.cleared = sel.cleared := by
  rcases readTicksFrom_read htries hsound rfl with
    ⟨sel', slots, hread, hsound', hcleared, -⟩ | ⟨-, slots, c'', outcome', hread, -⟩
  · rw [hread]
    exact ⟨hsound', hcleared⟩
  · rw [hread]
    exact ⟨⟨hsound.plans, nofun, nofun⟩, rfl⟩

end
end Ondas.Query
