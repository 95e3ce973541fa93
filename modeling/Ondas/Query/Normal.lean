import Ondas.Query.Failure

/-!
# Tick normalisation

The slots of a traversal between two deliveries hold the state that the completed ticks leave
(`Holding.state`), and so do the slots a traversal ends with. At each tick the visitor sees the
state that enters it, its changes and its events, and committing the tick gives the state it leaves.
-/

namespace Ondas.Query

open Library
open Vcd (Position)

section
variable {σ B : Type} {w : Waveform} {tr : Traversal σ B} {recs : List Record} {t : Nat}
  {st st' : Tally σ} {ds : List Delivery}

/-- A read whose callback did not break holds the reference of the records it took. -/
theorem consume_continues (hfits : tr.plan.Fits w) (h : Holding w tr.plan recs t st)
    (hordered : Ordered t ds) (hsorted : Chronological (recs ++ decoded ds))
    (htyped : Typed w (recs ++ decoded ds)) (hrun : visit (consume tr) st ds = (st', .continue)) :
    ∃ t', Holding w tr.plan (recs ++ decoded ds) t' st' := by
  rcases clean_or_fails tr.backend tr.plan recs ds with
    hclean | ⟨pre, d, post, e, rfl, hclean, hfails⟩
  · rcases hvisit : sweep (shown tr.start tr.visitor) st.visited
      (views w tr.plan (recs ++ decoded ds) (completedTicks st.pendingTime ds)) with ⟨c, outcome⟩
    by_cases hout : outcome = .ok .continue
    · subst hout
      obtain ⟨st₁, t', hrun', hholds, -⟩ := consume_all tr hfits h
        (by rwa [List.append_nil]) hsorted htyped hclean hvisit
      rw [hrun] at hrun'
      cases hrun'
      exact ⟨t', hholds⟩
    · obtain ⟨st₁, hrun', -⟩ :=
        consume_all_stop tr hfits h hordered hsorted htyped hclean hvisit hout
      rw [hrun] at hrun'
      cases hrun'
  · -- A delivery that fails breaks, or the visitor does before it.
    have hsub : (recs ++ decoded pre).Sublist (recs ++ decoded (pre ++ d :: post)) := by
      rw [decoded_append]
      exact (List.sublist_append_left _ _).append_left _
    have hsorted' := hsorted.sublist hsub
    have htyped' : Typed w (recs ++ decoded pre) := fun r hr => htyped r (hsub.subset hr)
    rcases hvisit : sweep (shown tr.start tr.visitor) st.visited
      (views w tr.plan (recs ++ decoded pre) (completedTicks st.pendingTime pre ++
        (d.closed (pendingTick st.pendingTime pre)).toList)) with ⟨c, outcome⟩
    by_cases hout : outcome = .ok .continue
    · subst hout
      obtain ⟨st₁, hrun', -⟩ :=
        consume_failure tr hfits h hordered hsorted' htyped' hclean hfails hvisit
      rw [hrun] at hrun'
      cases hrun'
    · obtain ⟨st₁, hrun', -⟩ :=
        consume_failure_stop tr hfits h hordered hsorted' htyped' hclean hvisit
        hout
      rw [hrun] at hrun'
      cases hrun'

/-- The state that enters a tick is that of any tick between the last record before it and it. -/
theorem enteredAt_between {signal : Signal} {s s' : Nat}
    (h : ∀ r ∈ recs, r.time < s ∧ r.time < s' ∨ s ≤ r.time ∧ s' ≤ r.time) :
    w.enteredAt recs signal s = w.enteredAt recs signal s' := by
  rcases Nat.le_total s s' with hle | hle
  · exact (Waveform.enteredAt_quiet hle fun r hr => (h r hr).imp And.left And.right).symm
  · exact Waveform.enteredAt_quiet hle fun r hr => (h r hr).imp And.right And.left

/-- The slots of a traversal hold the state that the completed ticks leave. -/
theorem Holding.state {plan : Plan} (h : Holding w plan recs t st) {later : List Record} {τ : Nat}
    (hdone : ∀ r ∈ recs, r.time ≤ τ ∨ st.pendingTime = some r.time)
    (hpending : ∀ t', st.pendingTime = some t' → τ < t') (hlater : ∀ r ∈ later, τ < r.time)
    {i : Nat} {s : Signal} (hi : plan.retained[i]? = some s) :
    (slotAt st.work.1 i).state = stateOf (w.committedAt (recs ++ later) s τ) := by
  rw [h.ready.slotAt hi, ← Waveform.enteredAt_succ, Waveform.enteredAt_append hlater]
  show stateOf (w.enteredAt recs s t) = _
  rw [enteredAt_between fun r hr => ?_]
  rcases h.pending with hsome | ⟨hnone, hlt⟩
  · have := hpending t hsome
    rcases hdone r hr with hle | htime
    · omega
    · rw [hsome, Option.some.injEq] at htime
      omega
  · rcases hdone r hr with hle | htime
    · have := hlt r hr
      omega
    · rw [hnone] at htime
      cases htime

/-- A tick whose value is the one that enters it leaves a slot unchanged. -/
theorem commit_glitch {signal : Signal} (hsorted : Chronological recs) (htyped : Typed w recs)
    (hvalid : w.Valid signal) (h : w.valueAt recs signal t = w.enteringAt recs signal t) :
    ((w.viewSlot recs t signal).commit t).state = (w.viewSlot recs t signal).state ∧
      w.committedAt recs signal t = w.enteredAt recs signal t := by
  have hsame := committedAt_same h
  refine ⟨?_, hsame⟩
  rw [commit_state hsorted htyped hvalid, hsame]
  rfl

end

section
variable {σ B : Type} {sizes : Sizes} {src : Source} {w : Waveform} {signals : List Signal}
  {sel : Selection} {whole : List Record} {stored : Position → List Record → Prop}

/-- **Tick normalisation is exact.** A traversal up to a tick ends with the state the tick leaves in
every slot; a traversal of a longer stream has that state when the ticks up to the tick are
completed; and the visitor of a tick sees the state that enters it and its events, its commit gives
the state it leaves, and a tick whose writes return to the entering value changes nothing. -/
theorem ticks_normalise (hreached : sel.Reached sizes src w signals)
    (htries : src.Tries w sel.plan whole stored) (start : Option Nat) (visitor : TickVisitor σ B)
    (c : σ) :
    (∀ t, (sel.readTicksFrom sizes src start t visitor c).2.2.2 = .ok .continue →
      ∀ i s, sel.plan.retained[i]? = some s →
        (slotAt (sel.readTicksFrom sizes src start t visitor c).2.1 i).state =
          stateOf (w.committedAt whole s t)) ∧
    (∀ stop, ∃ before rest, whole = before ++ rest ∧
      ∀ ds ending, src.Answers sel.plan.bases stop
          (((sel.seed sizes src start).resumed start stop).map Replay.position) ds ending →
      ∀ pre post, ds = pre ++ post → ∀ st,
        visit (consume ⟨sel.plan, sizes, src.backend, start, visitor⟩)
          ((sel.seed sizes src start).tally start stop c) pre = (st, .continue) →
        ∃ later, rest = decoded pre ++ later ∧
          ∀ t, (∀ r ∈ before ++ decoded pre, r.time ≤ t ∨ st.pendingTime = some r.time) →
            (∀ t', st.pendingTime = some t' → t < t') → (∀ r ∈ later, t < r.time) →
            ∀ i s, sel.plan.retained[i]? = some s →
              (slotAt st.work.1 i).state = stateOf (w.committedAt whole s t)) ∧
    (∀ stop, ∃ ticks failure, ticks.Pairwise (· < ·) ∧
      (∀ τ ∈ ticks, (∃ r ∈ whole, r.time = τ) ∧ (∀ s, start = some s → s ≤ τ) ∧ τ ≤ stop) ∧
      (sel.readTicksFrom sizes src start stop visitor c).2.2 =
        ((sweep visitor c (views w sel.plan whole ticks)).1,
          failing (sweep visitor c (views w sel.plan whole ticks)).2 failure)) ∧
    (∀ stop, (sel.readTicksFrom sizes src start stop visitor c).2.2.2 = .ok .continue →
      (sel.readTicksFrom sizes src start stop visitor c).2.2 =
        sweep visitor c (views w sel.plan whole (published (upTo stop whole) start))) ∧
    ∀ t, ∀ s ∈ sel.plan.retained,
      (w.viewSlot whole t s).state = stateOf (w.enteredAt whole s t) ∧
      (w.viewSlot whole t s).events = countAt whole s t ∧
      ((w.viewSlot whole t s).commit t).state = stateOf (w.committedAt whole s t) ∧
      (w.valueAt whole s t = w.enteringAt whole s t →
        ((w.viewSlot whole t s).commit t).state = (w.viewSlot whole t s).state ∧
        w.committedAt whole s t = w.enteredAt whole s t) := by
  have hsound := hreached.sound htries
  have hbounded := hreached.bounded htries
  have hwaveform := hreached.waveform_eq
  subst hwaveform
  refine ⟨fun t hends i s hi => ?_, fun stop => ?_, fun stop => ?_, fun stop hends => ?_,
    fun t s hs => ?_⟩
  · rcases hvisit : sweep visitor c (views sel.waveform sel.plan whole
      (published (upTo t whole) start)) with ⟨c', outcome⟩
    rcases readTicksFrom_read htries hsound hvisit with
      ⟨sel', slots, hread, -, -, hslots, -⟩ | ⟨-, slots, c'', outcome', hread, hne, -⟩
    · rw [hread] at hends ⊢
      rw [hslots hends, slotAt, List.getElem?_map, hi]
      rfl
    · rw [hread] at hends
      exact absurd hends hne
  · obtain ⟨sel₁, hseed⟩ : ∃ sel₁, sel.seed sizes src start = sel₁ := ⟨_, rfl⟩
    have hcleared : sel₁.cleared = sel.cleared := by rw [← hseed, Selection.seed_cleared]
    have hwaveform : sel₁.waveform = sel.waveform := by
      have h := congrArg Selection.waveform hcleared
      exact h
    have hplan : sel₁.plan = sel.plan := by
      have h := congrArg Selection.plan hcleared
      exact h
    have hsound₁ : sel₁.Sound whole stored := hseed ▸ hsound.seed htries.toCarries sizes start
    rw [hseed]
    rw [← hwaveform, ← hplan] at htries ⊢
    obtain ⟨before, rest, t, hstarts, -⟩ := hsound₁.startsAt start stop c
    refine ⟨before, rest, hstarts.split, fun ds ending hanswers pre post hds st hrun => ?_⟩
    obtain ⟨ds', more, ending', hanswers', hattempts⟩ := htries.starts hstarts
    obtain ⟨rfl, rfl⟩ := Source.Answers.unique ending ending' hanswers hanswers'
    have hrest : rest = decoded pre ++ (decoded post ++ more) := by
      rw [← List.append_assoc, ← decoded_append, ← hds]
      exact hattempts.split
    have hsub : (before ++ decoded pre).Sublist whole := by
      rw [hstarts.split, hrest, ← List.append_assoc]
      exact List.sublist_append_left _ _
    obtain ⟨t', hholds⟩ := consume_continues
      hsound₁.plans.toFits hstarts.holding
      (Ordered.left (hds ▸ hattempts.ordered t hstarts.after))
      (htries.chronological.sublist hsub) (fun r hr => htries.typed r (hsub.subset hr)) hrun
    refine ⟨_, hrest, fun τ hdone hpending hlater i s hi => ?_⟩
    rw [hstarts.split, hrest, ← List.append_assoc]
    exact hholds.state hdone hpending hlater hi
  · obtain ⟨origin, before, rest, taken, eof, failure, ticks, -, -, -, hincreasing, hmem, -,
      hread, -⟩ :=
      readTicksFrom_publishes htries hsound hbounded start stop visitor c
    refine ⟨ticks, failure, hincreasing, fun τ hτ => ?_, hread⟩
    obtain ⟨hrecorded, hstart, hstop, -⟩ := (hmem τ).1 hτ
    exact ⟨hrecorded, hstart, hstop⟩
  · rcases hvisit : sweep visitor c (views sel.waveform sel.plan whole
      (published (upTo stop whole) start)) with ⟨c', outcome⟩
    rcases readTicksFrom_read htries hsound hvisit with
      ⟨sel', slots, hread, -⟩ | ⟨-, slots, c'', outcome', hread, hne, -⟩
    · rw [hread]
    · rw [hread] at hends
      exact absurd hends hne
  · have hvalid := hsound.plans.valid s hs
    exact ⟨rfl, rfl, commit_state htries.chronological htries.typed hvalid,
      commit_glitch htries.chronological htries.typed hvalid⟩

/-- The bus, its low bit and the strobe after tick 5, where the bus is written with a glitch. -/
theorem ticks_normalise_bus :
    (slotAt (busSelection.readTicksFrom ⟨0, 0⟩ busSource none 5
      (fun _ _ _ => ((), .ok (.continue (B := Unit)))) ()).2.1 1).state =
        some ⟨.bits (ascii "1"), none⟩ := by
  obtain ⟨hends, -⟩ := ticks_normalise (B := Unit) (busSelection_reached ⟨0, 0⟩)
    busSource_serves.toReads.tries none (fun _ _ _ => ((), .ok .continue)) ()
  rw [hends 5 (by decide +kernel) 1 busLow (by decide +kernel)]
  decide +kernel

end
end Ondas.Query
