import Ondas.Query.Counts

/-!
# Failing reads

What a traversal publishes when its read fails or its visitor stops. A tick is published when it is
recorded, in the window, and proved complete by what the read handed over: a record or a failure of
a later tick, the end of the tick itself, or the clean end of the read. The slots published are
those of the whole stream, and a traversal that does not complete leaves a fresh selection.
-/

namespace Ondas.Query

open Library
open Vcd (Position)

/-! ## Proved ticks -/

/-- A delivery proves that nothing more follows at a tick. -/
def Delivery.Proves (τ : Nat) : Delivery → Prop
  | .record _ _ time _ => τ < time
  | .tick time => τ ≤ time

/-- What a read hands over: everything, if it ends well or with an error of the reader, or the
deliveries up to one that does not decode or counts too many events. -/
inductive Handed (src : Source) (plan : Plan) (stop : Nat) (origin : Option Position)
    (before : List Record) : List Delivery → Bool → Option Error → Prop
  | completed {ds : List Delivery} (final : Option Position) :
      src.Answers plan.bases stop origin ds (.ok final) → Clean src.backend plan before ds →
      Handed src plan stop origin before ds true none
  | untimed {ds : List Delivery} (e : Error) : src.Answers plan.bases stop origin ds (.error e) →
      Clean src.backend plan before ds → Handed src plan stop origin before ds false (some e)
  | timed {pre post : List Delivery} {ending : Except Error (Option Position)} (base : Nat)
      (e : Error) (time : Nat) (p : Option Position) :
      src.Answers plan.bases stop origin (pre ++ .record base (.error e) time p :: post) ending →
      Clean src.backend plan before pre →
      Handed src plan stop origin before (pre ++ [.record base (.error e) time p]) false (some e)
  | overflow {pre post : List Delivery} {ending : Except Error (Option Position)} (base : Nat)
      (occurrences time : Nat) (p : Option Position) :
      src.Answers plan.bases stop origin
        (pre ++ .record base (.ok (.event occurrences)) time p :: post) ending →
      Clean src.backend plan before pre → plan.entries base ≠ [] →
      u64Max < eventsAt (before ++ decoded pre) base time + occurrences →
      Handed src plan stop origin before (pre ++ [.record base (.ok (.event occurrences)) time p])
        false (some (countError src.backend))

section
variable {t τ : Nat} {pending : Option Nat} {pre : List Delivery} {d : Delivery}

/-- A delivery in order completes the pending tick when it proves it. -/
theorem closed_eq_some (hordered : Ordered t [d]) (hpending : pending = none ∨ pending = some t) :
    d.closed pending = some τ ↔ pending = some τ ∧ d.Proves τ := by
  cases d with
  | tick time =>
    refine ⟨fun h => ⟨h, ?_⟩, fun h => h.1⟩
    rcases hpending with rfl | rfl
    · cases h
    · cases h
      exact hordered.1
  | record base value time p =>
    have hle := hordered.1
    simp only [Delivery.closed, Option.filter_eq_some_iff, decide_eq_true_eq, Delivery.Proves]
    refine and_congr_right fun h => ?_
    rcases hpending with rfl | rfl
    · cases h
    · cases h
      omega

/-- What a delivery leaves to the deliveries after it. -/
theorem Ordered.next {ds : List Delivery} (hordered : Ordered t (d :: ds)) : ∃ t', Ordered t' ds ∧
    (d.pendingAfter = none ∨ d.pendingAfter = some t') ∧
    (∀ r ∈ decoded ds, ¬ d.Proves r.time) ∧
    ∀ τ, t = τ → ¬ d.Proves τ → d.pendingAfter = some τ := by
  cases d with
  | tick time =>
    refine ⟨time + 1, hordered.2, .inl rfl, fun r hr hproves => ?_, fun τ hτ hnot => ?_⟩
    · have := hordered.2.le r hr
      have : r.time ≤ time := hproves
      omega
    · exact absurd (hτ ▸ hordered.1) hnot
  | record base value time p =>
    refine ⟨time, hordered.2, .inr rfl, fun r hr hproves => ?_, fun τ hτ hnot => ?_⟩
    · have := hordered.2.le r hr
      have : r.time < time := hproves
      omega
    · have := hordered.1
      have : ¬ τ < time := hnot
      exact congrArg some (by omega)

/-- The ticks completed up to a delivery are those recorded before it and proved up to it. -/
theorem mem_completed_closed (hdecodes : Decodes pre) (hordered : Ordered t (pre ++ [d]))
    (hpending : pending = none ∨ pending = some t) :
    τ ∈ completedTicks pending pre ++ (d.closed (pendingTick pending pre)).toList ↔
      (pending = some τ ∨ ∃ r ∈ decoded pre, r.time = τ) ∧ ∃ d' ∈ pre ++ [d], d'.Proves τ := by
  induction pre generalizing t pending with
  | nil =>
    rw [completedTicks, List.nil_append, pendingTick, Option.mem_toList,
      closed_eq_some hordered hpending]
    simp [decoded]
  | cons x pre ih =>
    have hcons : Ordered t (x :: (pre ++ [d])) := hordered
    have hsingle : Ordered t ([x] ++ (pre ++ [d])) := hordered
    obtain ⟨t', hordered', hpending', hnone, hkeep⟩ := Ordered.next hcons
    have hdecodes' : Decodes pre := fun d' hd' => hdecodes d' (List.mem_cons_of_mem _ hd')
    have hclosed := closed_eq_some (τ := τ) (d := x) (Ordered.left hsingle) hpending
    rw [completedTicks, List.append_assoc, List.mem_append, Option.mem_toList, hclosed]
    show _ ∨ τ ∈ completedTicks x.pendingAfter pre ++
      (d.closed (pendingTick x.pendingAfter pre)).toList ↔ _
    rw [ih hdecodes' hordered' hpending', decoded_cons]
    have hafter : x.pendingAfter = some τ ↔ ∃ r ∈ x.record?.toList, r.time = τ := by
      cases x with
      | tick time => simp [Delivery.pendingAfter, Delivery.record?]
      | record base value time p =>
        cases value with
        | error e => exact absurd rfl (hdecodes _ (by simp) base e time p)
        | ok v => simp [Delivery.pendingAfter, Delivery.record?]
    have hself : x.pendingAfter = some τ → ¬ x.Proves τ := by
      cases x with
      | tick time =>
        intro h
        cases h
      | record base value time p =>
        intro h hproves
        cases h
        exact Nat.lt_irrefl _ hproves
    constructor
    · rintro (⟨hsome, hproves⟩ | ⟨hsome | ⟨r, hr, htime⟩, d', hd', hproves⟩)
      · exact ⟨.inl hsome, x, by simp, hproves⟩
      · obtain ⟨r, hr, htime⟩ := hafter.1 hsome
        exact ⟨.inr ⟨r, List.mem_append_left _ hr, htime⟩, d', List.mem_cons_of_mem _ hd', hproves⟩
      · exact ⟨.inr ⟨r, List.mem_append_right _ hr, htime⟩, d', List.mem_cons_of_mem _ hd', hproves⟩
    · rintro ⟨hrecorded, d', hd', hproves⟩
      rcases List.mem_cons.1 hd' with rfl | hd'
      · -- The delivery itself proves the tick, so the tick was pending before it.
        rcases hrecorded with hsome | ⟨r, hr, rfl⟩
        · exact .inl ⟨hsome, hproves⟩
        · rcases List.mem_append.1 hr with hr | hr
          · exact absurd hproves (hself (hafter.2 ⟨r, hr, rfl⟩))
          · refine absurd hproves (hnone r ?_)
            rw [decoded_append]
            exact List.mem_append_left _ hr
      · by_cases hx : x.Proves τ ∧ pending = some τ
        · exact .inl ⟨hx.2, hx.1⟩
        · refine .inr ⟨?_, d', hd', hproves⟩
          rcases hrecorded with hsome | ⟨r, hr, htime⟩
          · have hτ : t = τ := by
              rcases hpending with hnil | ht
              · rw [hnil] at hsome; cases hsome
              · rw [ht] at hsome; cases hsome; rfl
            exact .inl (hkeep τ hτ fun h => hx ⟨h, hsome⟩)
          · rcases List.mem_append.1 hr with hr | hr
            · exact .inl (hafter.2 ⟨r, hr, htime⟩)
            · exact .inr ⟨r, hr, htime⟩

/-- A delivery that proves a tick comes before the records of later ticks. -/
theorem Ordered.proves_after {ds ds' : List Delivery} (hordered : Ordered t (ds ++ ds'))
    (hd : d ∈ ds) (hproves : d.Proves τ) : ∀ r ∈ decoded ds', τ < r.time := by
  induction ds generalizing t with
  | nil => cases hd
  | cons x ds ih =>
    rcases List.mem_cons.1 hd with rfl | htail
    · intro r hr
      have hin : r ∈ decoded (ds ++ ds') := by rw [decoded_append]; exact List.mem_append_right _ hr
      cases d with
      | tick time =>
        have hle := hordered.2.le r hin
        have hτ : τ ≤ time := hproves
        omega
      | record base value time p => exact Nat.lt_of_lt_of_le hproves (hordered.2.le r hin)
    · cases x with
      | tick time => exact ih hordered.2 htail
      | record base value time p => exact ih hordered.2 htail

/-- A delivery proves no tick of its own record. -/
theorem not_proves_record {r : Record} (h : r ∈ d.record?.toList) (hproves : d.Proves τ) :
    τ < r.time := by
  cases d with
  | tick time => cases h
  | record base value time p =>
    cases value with
    | error e => cases h
    | ok v =>
      rw [show r = ⟨base, time, v⟩ by simpa [Delivery.record?] using h]
      exact hproves

/-- A delivery completes the tick before it when it is later. -/
theorem completedTicks_concat : completedTicks pending (pre ++ [d]) =
    completedTicks pending pre ++ (d.closed (pendingTick pending pre)).toList := by
  induction pre generalizing pending with
  | nil => simp [completedTicks, pendingTick]
  | cons x pre ih =>
    rw [List.cons_append, completedTicks, completedTicks, ih, List.append_assoc]
    rfl

/-- The ticks a stream completes are those recorded and proved in it. -/
theorem mem_completedTicks_proved {ds : List Delivery} (hdecodes : Decodes ds)
    (hordered : Ordered t ds)
    (hpending : pending = none ∨ pending = some t) : τ ∈ completedTicks pending ds ↔
      (pending = some τ ∨ ∃ r ∈ decoded ds, r.time = τ) ∧ ∃ d ∈ ds, d.Proves τ := by
  rcases List.eq_nil_or_concat ds with rfl | ⟨pre, d, rfl⟩
  · simp [completedTicks]
  · rw [List.concat_eq_append] at hdecodes hordered ⊢
    rw [completedTicks_concat, mem_completed_closed
      (fun d' hd' => hdecodes d' (List.mem_append_left _ hd')) hordered hpending, decoded_append]
    refine and_congr_left fun hproved => or_congr_right ?_
    obtain ⟨d', hd', hproves⟩ := hproved
    constructor
    · rintro ⟨r, hr, htime⟩
      exact ⟨r, List.mem_append_left _ hr, htime⟩
    rintro ⟨r, hr, htime⟩
    rcases List.mem_append.1 hr with hr | hr
    · exact ⟨r, hr, htime⟩
    · -- The record of the last delivery is not proved by anything handed over.
      rw [decoded_cons, show decoded [] = [] from rfl, List.append_nil] at hr
      rcases List.mem_append.1 hd' with hd' | hd'
      · have hlt := hordered.proves_after hd' hproves r (by
          rw [decoded_cons, show decoded [] = [] from rfl, List.append_nil]; exact hr)
        omega
      · rw [List.mem_singleton] at hd'
        subst hd'
        have := not_proves_record hr hproves
        omega

end

/-! ## What a read publishes -/

section
variable {σ : Type} {w : Waveform} {plan : Plan} {whole done rest later : List Record}
  {stored : Position → List Record → Prop} {src : Source} {start : Option Nat} {stop t : Nat}
  {st : Tally σ} {origin : Option Position} {ds : List Delivery}
  {ending : Except Error (Option Position)}

/-- A delivery that proves a tick comes before the records that were not delivered. -/
theorem Attempts.proves_later (h : Attempts stored stop rest later ds ending)
    (hsorted : Chronological rest) {d : Delivery} (hd : d ∈ ds) {τ : Nat} (hproves : d.Proves τ) :
    ∀ r ∈ later, τ < r.time := by
  intro r hr
  cases d with
  | tick time => exact Nat.lt_of_le_of_lt hproves (h.ticks time hd r hr)
  | record base value time p =>
    cases value with
    | error e => exact Nat.lt_of_lt_of_le hproves (h.failures base e time p hd r hr)
    | ok v =>
      have hmem : (⟨base, time, v⟩ : Record) ∈ decoded ds := List.mem_filterMap.2 ⟨_, hd, rfl⟩
      rw [h.split] at hsorted
      exact Nat.lt_of_lt_of_le hproves ((List.pairwise_append.1 hsorted).2.2 _ hmem r hr)

/-- A read counts the events of its selected histories within `u64`. -/
theorem Proves.counts {backend : String} {pending : Option Nat} {recs : List Record}
    {ticks : List Nat}
    {failure : Option Error} (h : Proves backend plan done pending ds ending recs ticks failure)
    {base : Nat} (hbase : plan.entries base ≠ []) (hdone : eventsAt done base t ≤ u64Max) :
    eventsAt (done ++ recs) base t ≤ u64Max := by
  cases h with
  | failed _ _ hclean _ => exact hclean.counts hbase hdone
  | cut _ hclean => exact hclean.counts hbase hdone
  | ended _ hclean => exact hclean.counts hbase hdone

/-- The slots a traversal holds count the events of its histories, from its tick on. -/
theorem Holding.counts (hfits : plan.Fits w) (h : Holding w plan done t st)
    (hbounded : Bounded st.work.1) {base τ : Nat} (hbase : plan.entries base ≠ []) (hle : t ≤ τ) :
    eventsAt done base τ ≤ u64Max := by
  by_cases heq : t = τ
  · subst heq
    obtain ⟨slot, hslot⟩ := List.exists_mem_of_ne_nil _ hbase
    obtain ⟨s, hs, hcomputed, rfl⟩ := (hfits.entries base slot).1 hslot
    rw [h.ready.slots] at hbounded
    rw [← openSlot_events (w := w) hcomputed]
    exact hbounded _ (List.mem_map_of_mem (List.mem_of_getElem? hs))
  · have hzero : eventsAt done base τ = 0 := by
      unfold eventsAt
      rw [List.filter_eq_nil_iff.2 fun r hr => ?_]
      · rfl
      · have := h.le r hr
        simp only [decide_eq_true_eq, not_and]
        omega
    rw [hzero]
    exact Nat.zero_le _

/-- What a read hands over, and what it proves. -/
structure Publishes (src : Source) (plan : Plan) (whole done : List Record) (start : Option Nat)
    (stop t : Nat) (origin : Option Position) (pending : Option Nat) (ds : List Delivery)
    (ending : Except Error (Option Position)) (taken : List Delivery) (eof : Bool)
    (failure : Option Error) (recs more : List Record) (ticks : List Nat) : Prop where
  handed : Handed src plan stop origin done taken eof failure
  proves : Proves src.backend plan done pending ds ending recs ticks failure
  split : whole = (done ++ recs) ++ more
  before : ∀ τ ∈ ticks, ∀ r ∈ more, τ < r.time
  increasing : ticks.Pairwise (· < ·)
  least : ∀ τ ∈ ticks, t ≤ τ
  mem : ∀ τ, (∀ s, start = some s → s ≤ τ) → (τ ∈ ticks ↔ (∃ r ∈ whole, r.time = τ) ∧ τ ≤ stop ∧
    (eof = true ∨ ∃ d ∈ taken, d.Proves τ))

/-- Where a traversal starts, the recorded ticks of the window are those still to be completed. -/
theorem StartsAt.mem_window (h : StartsAt w plan whole stored start stop st origin done rest t)
    {recs more : List Record} (hsplit : whole = (done ++ recs) ++ more)
    (hle : ∀ r ∈ recs, r.time ≤ stop) {τ : Nat} (hstart : ∀ s, start = some s → s ≤ τ)
    (hmore : ∀ r ∈ more, r.time ≠ τ ∨ stop < τ) :
    (st.pendingTime = some τ ∨ ∃ r ∈ recs, r.time = τ) ↔ (∃ r ∈ whole, r.time = τ) ∧ τ ≤ stop := by
  constructor
  · rintro (hsome | ⟨r, hr, rfl⟩)
    · obtain ⟨r, hr, rfl⟩ := h.pending τ hsome
      exact ⟨⟨r, hsplit ▸ List.mem_append_left _ (List.mem_append_left _ hr), rfl⟩, h.done_le r hr⟩
    · exact ⟨⟨r, hsplit ▸ List.mem_append_left _ (List.mem_append_right _ hr), rfl⟩, hle r hr⟩
  · rintro ⟨⟨r, hr, rfl⟩, hstop⟩
    rw [hsplit] at hr
    rcases List.mem_append.1 hr with hr | hr
    · rcases List.mem_append.1 hr with hr | hr
      · exact .inl (h.window r hr hstart)
      · exact .inr ⟨r, hr, rfl⟩
    · rcases hmore r hr with hne | hlt
      · exact absurd rfl hne
      · omega

/-- A read publishes the ticks of the window that it proves. -/
theorem read_publishes (hsorted : Chronological whole)
    (hstarts : StartsAt w plan whole stored start stop st origin done rest t)
    (hanswers : src.Answers plan.bases stop origin ds ending)
    (hattempts : Attempts stored stop rest later ds ending) :
    ∃ taken eof failure recs more ticks, Publishes src plan whole done start stop t origin
      st.pendingTime ds ending taken eof failure recs more ticks := by
  have hrest : Chronological rest := by
    have h := hsorted
    rw [hstarts.split] at h
    exact h.sublist (List.sublist_append_right _ _)
  have hordered := hattempts.ordered t hstarts.after
  have hpending : st.pendingTime = none ∨ st.pendingTime = some t :=
    hstarts.holding.pending.elim .inr fun h => .inl h.1
  have hsplit : whole = (done ++ decoded ds) ++ later := by
    rw [hstarts.split, hattempts.split, List.append_assoc]
  obtain ⟨hincreasing, hleast⟩ := completedTicks_increasing hordered hpending
  rcases clean_or_fails src.backend plan done ds with
    hclean | ⟨pre, d, post, e, hds, hclean, hfailure⟩
  · have hdecodes := hclean.decodes
    cases hending : ending with
    | error e =>
      subst hending
      have hbefore : ∀ {τ}, (∃ d ∈ ds, d.Proves τ) → ∀ r ∈ later, τ < r.time :=
        fun ⟨d, hd, hproves⟩ => hattempts.proves_later hrest hd hproves
      refine ⟨ds, false, some e, decoded ds, later, _, .untimed e hanswers hclean, .cut e hclean,
        hsplit, fun τ hτ => ?_, hincreasing.sublist (List.sublist_append_left _ _),
        fun τ hτ => hleast τ (List.mem_append_left _ hτ), fun τ hstart => ?_⟩
      · exact hbefore ((mem_completedTicks_proved hdecodes hordered hpending).1 hτ).2
      · rw [mem_completedTicks_proved hdecodes hordered hpending, ← and_assoc]
        simp only [Bool.false_eq_true, false_or]
        refine and_congr_left fun hproved => hstarts.mem_window hsplit hattempts.le hstart
          fun r hr => .inl ?_
        have := hbefore hproved r hr
        omega
    | ok final =>
      subst hending
      have hdelivers := hattempts.ended final rfl hdecodes
      have hlater : ∀ r ∈ later, stop < r.time := by
        have hlaterpast : later = past stop rest := by
          have h := hattempts.split
          rw [hdelivers.decoded] at h
          exact (List.append_cancel_left ((upTo_append_past stop rest).trans h)).symm
        rw [hlaterpast]
        exact past_gt hrest
      have hmem : ∀ τ, τ ∈ completedTicks st.pendingTime ds ++
          (pendingTick st.pendingTime ds).toList ↔
          st.pendingTime = some τ ∨ ∃ r ∈ decoded ds, r.time = τ := fun τ =>
        mem_completedTicks hdecodes
      refine ⟨ds, true, none, decoded ds, later, _, .completed final hanswers hclean,
        .ended final hclean, hsplit, fun τ hτ r hr => ?_, hincreasing, hleast, fun τ hstart => ?_⟩
      · refine Nat.lt_of_le_of_lt ?_ (hlater r hr)
        rcases (hmem τ).1 hτ with hsome | ⟨r', hr', rfl⟩
        · obtain ⟨r', hr', rfl⟩ := hstarts.pending τ hsome
          exact hstarts.done_le r' hr'
        · exact hattempts.le r' hr'
      · rw [hmem, hstarts.mem_window hsplit hattempts.le hstart fun r hr => by
          have := hlater r hr
          omega]
        simp
  · subst hds
    have hdecodes := hclean.decodes
    rw [show pre ++ d :: post = (pre ++ [d]) ++ post by simp] at hordered
    have hordered' := hordered.left
    have hmore : ∀ {τ}, (∃ d' ∈ pre ++ [d], d'.Proves τ) →
        ∀ r ∈ d.record?.toList ++ decoded post ++ later, τ < r.time := by
      rintro τ ⟨d', hd', hproves⟩ r hr
      have hd'' : d' ∈ pre ++ d :: post := by
        rcases List.mem_append.1 hd' with h | h
        · exact List.mem_append_left _ h
        · exact List.mem_append_right _ (List.mem_singleton.1 h ▸ List.mem_cons_self)
      rcases List.mem_append.1 hr with hr | hr
      · rcases List.mem_append.1 hr with hr | hr
        · rcases List.mem_append.1 hd' with h | h
          · refine hordered'.proves_after h hproves r ?_
            rw [decoded_cons, show decoded [] = [] from rfl, List.append_nil]
            exact hr
          · rw [List.mem_singleton] at h
            subst h
            exact not_proves_record hr hproves
        · exact hordered.proves_after hd' hproves r hr
      · exact hattempts.proves_later hrest hd'' hproves r hr
    have hsplit' :
        whole = (done ++ decoded pre) ++ (d.record?.toList ++ decoded post ++ later) := by
      rw [hsplit, decoded_append, decoded_cons]
      simp
    have hle : ∀ r ∈ decoded pre, r.time ≤ stop := fun r hr =>
      hattempts.le r (by rw [decoded_append]; exact List.mem_append_left _ hr)
    obtain ⟨hincreasing', hleast'⟩ := completedTicks_increasing (Ordered.left hordered') hpending
    have hclosed : (d.closed (pendingTick st.pendingTime pre)).toList.Sublist
        (pendingTick st.pendingTime pre).toList := by
      cases d with
      | tick time => exact .refl _
      | record base value time p =>
        cases pendingTick st.pendingTime pre with
        | none => exact .refl _
        | some τ =>
          simp only [Delivery.closed, Option.filter_some]
          split
          · exact .refl _
          · exact List.nil_sublist _
    have hhanded : ∀ e, d.failure src.backend plan (done ++ decoded pre) = some e →
        Handed src plan stop origin done (pre ++ [d]) false (some e) := by
      intro e hfailure
      cases d with
      | tick time => cases hfailure
      | record base value time p =>
        cases value with
        | error e' =>
          cases hfailure
          exact .timed base e time p hanswers hclean
        | ok v =>
          simp only [Delivery.failure] at hfailure
          split at hfailure
          · next hover =>
            cases hfailure
            cases v with
            | event occurrences =>
              exact .overflow base occurrences time p hanswers hclean hover.1 hover.2.1
            | bits | real | string => cases hover.2.2
          · cases hfailure
    refine ⟨pre ++ [d], false, some e, decoded pre, _, _, hhanded e hfailure,
      .failed ending rfl hclean hfailure, hsplit', fun τ hτ => ?_,
      hincreasing'.sublist (hclosed.append_left _),
      fun τ hτ => hleast' τ ((hclosed.append_left _).subset hτ), fun τ hstart => ?_⟩
    · exact hmore ((mem_completed_closed hdecodes hordered' hpending).1 hτ).2
    · rw [mem_completed_closed hdecodes hordered' hpending, ← and_assoc]
      simp only [Bool.false_eq_true, false_or]
      refine and_congr_left fun hproved => hstarts.mem_window hsplit' hle hstart fun r hr => .inl ?_
      have := hmore hproved r hr
      omega

end
section
variable {σ B : Type} {sizes : Sizes} {src : Source} {w : Waveform} {signals : List Signal}
  {sel : Selection} {whole : List Record} {stored : Position → List Record → Prop} {c : σ}

/-- A traversal shows its visitor the ticks of the window that its read proves, and a traversal that
does not complete leaves no snapshot. -/
theorem readTicksFrom_publishes (htries : src.Tries sel.waveform sel.plan whole stored)
    (hsound : sel.Sound whole stored) (hbounded : sel.Bounded) (start : Option Nat) (stop : Nat)
    (visitor : TickVisitor σ B) (c : σ) : ∃ origin before rest taken eof failure ticks,
      whole = before ++ rest ∧
      (origin = none ∧ before = [] ∨ ∃ p, origin = some p ∧ stored p rest) ∧
      Handed src sel.plan stop origin before taken eof failure ∧
      ticks.Pairwise (· < ·) ∧
      (∀ τ, τ ∈ ticks ↔ (∃ r ∈ whole, r.time = τ) ∧ (∀ s, start = some s → s ≤ τ) ∧ τ ≤ stop ∧
        (eof = true ∨ ∃ d ∈ taken, d.Proves τ)) ∧
      (∀ τ ∈ ticks, ∀ s ∈ sel.plan.retained, countAt whole s τ ≤ u64Max) ∧
      (sel.readTicksFrom sizes src start stop visitor c).2.2 =
        ((sweep visitor c (views sel.waveform sel.plan whole ticks)).1,
          failing (sweep visitor c (views sel.waveform sel.plan whole ticks)).2 failure) ∧
      ((sel.readTicksFrom sizes src start stop visitor c).2.2.2 ≠ .ok .continue →
        (sel.readTicksFrom sizes src start stop visitor c).1 = sel.cleared) := by
  obtain ⟨sel₁, hseed⟩ : ∃ sel₁, sel.seed sizes src start = sel₁ := ⟨_, rfl⟩
  have hcleared : sel₁.cleared = sel.cleared := by rw [← hseed, Selection.seed_cleared]
  have hwaveform : sel₁.waveform = sel.waveform := by
    have h := congrArg Selection.waveform hcleared
    exact h
  have hplan : sel₁.plan = sel.plan := by
    have h := congrArg Selection.plan hcleared
    exact h
  have hsound₁ : sel₁.Sound whole stored := hseed ▸ hsound.seed htries.toCarries sizes start
  have hbounded₁ : sel₁.Bounded := hseed ▸ hbounded.seed sizes src start
  rw [← hwaveform, ← hplan] at htries ⊢
  have hsorted := htries.chronological
  obtain ⟨before, rest, t, hstarts, ht⟩ := hsound₁.startsAt start stop c
  obtain ⟨ds, later, ending, hanswers, hattempts⟩ := htries.starts hstarts
  obtain ⟨taken, eof, failure, recs, more, ticks, hpublishes⟩ :=
    read_publishes hsorted hstarts hanswers hattempts
  have hshown :
      ∀ c, sweep (shown start visitor) c (views sel₁.waveform sel₁.plan (before ++ recs) ticks) =
      sweep visitor c (views sel₁.waveform sel₁.plan whole
        (ticks.filter fun τ => start.all fun start => decide (start ≤ τ))) := fun c => by
    rw [sweep_shown, views_filter (fun τ => start.all fun start => decide (start ≤ τ))]
    congr 1
    rw [hpublishes.split, views_append fun τ hτ => hpublishes.before τ (List.mem_filter.1 hτ).1]
  have hwindow : ∀ τ, (start.all fun start => decide (start ≤ τ)) = true ↔
      ∀ s, start = some s → s ≤ τ := fun τ => by cases start <;> simp
  refine ⟨_, before, rest, taken, eof, failure,
    ticks.filter fun τ => start.all fun start => decide (start ≤ τ), hstarts.split,
    hstarts.origin.imp id fun ⟨p, horigin, hstored, _⟩ => ⟨p, horigin, hstored⟩, hpublishes.handed,
    hpublishes.increasing.sublist List.filter_sublist, fun τ => ?_, fun τ hτ s hs => ?_, ?_⟩
  · rw [List.mem_filter, hwindow]
    constructor
    · rintro ⟨hτ, hstart⟩
      obtain ⟨hrecorded, hstop, hproved⟩ := (hpublishes.mem τ hstart).1 hτ
      exact ⟨hrecorded, hstart, hstop, hproved⟩
    · rintro ⟨hrecorded, hstart, hstop, hproved⟩
      exact ⟨(hpublishes.mem τ hstart).2 ⟨hrecorded, hstop, hproved⟩, hstart⟩
  · have hticks := (List.mem_filter.1 hτ).1
    cases hcomputed : s.computed with
    | true => simp [countAt, hcomputed]
    | false =>
      obtain ⟨i, hi⟩ := List.mem_iff_getElem?.1 hs
      have hbase : sel₁.plan.entries s.index ≠ [] := List.ne_nil_of_mem
        ((hsound₁.plans.entries s.index i).2 ⟨s, hi, hcomputed, rfl⟩)
      have hcounts := hpublishes.proves.counts hbase (hstarts.holding.counts hsound₁.plans.toFits
        (hbounded₁.tally start stop c).1 hbase (hpublishes.least τ hticks))
      have hmore : eventsAt more s.index τ = 0 := by
        unfold eventsAt
        rw [List.filter_eq_nil_iff.2 fun r hr => ?_]
        · rfl
        · have := hpublishes.before τ hticks r hr
          simp only [decide_eq_true_eq, not_and]
          omega
      simp only [countAt, hcomputed, Bool.false_eq_true, if_false]
      rw [hpublishes.split, eventsAt_append, hmore, Nat.add_zero]
      exact hcounts
  · rcases hvisit : sweep visitor c (views sel₁.waveform sel₁.plan whole
      (ticks.filter fun τ => start.all fun start => decide (start ≤ τ))) with ⟨c', outcome⟩
    rw [← hshown] at hvisit
    have hrecs : Chronological (before ++ recs) ∧ Typed sel₁.waveform (before ++ recs) := by
      have hsublist : (before ++ recs).Sublist whole :=
        hpublishes.split ▸ List.sublist_append_left _ _
      exact ⟨hsorted.sublist hsublist, fun r hr => htries.typed r (hsublist.subset hr)⟩
    by_cases hstop : outcome = .ok .continue → failure.isSome = true
    · obtain ⟨slots, hread⟩ := readTicksFrom_stops hseed hsound₁.plans.toFits hstarts hanswers
        (hattempts.ordered t hstarts.after) hpublishes.proves hrecs.1 hrecs.2 hvisit hstop
      rw [hread]
      exact ⟨rfl, fun _ => rfl⟩
    · -- Nothing failed, and the visitor went on.
      obtain ⟨hgoes, hnone⟩ := Classical.not_imp.1 hstop
      rw [Bool.not_eq_true, Option.isSome_eq_false_iff, Option.isNone_iff_eq_none] at hnone
      subst hgoes hnone
      cases hpublishes.proves with
      | ended final hclean =>
        have hdelivers := hattempts.ended final rfl hclean.decodes
        rw [hstarts.sweep_published hsorted hdelivers] at hvisit
        obtain ⟨sel', hread, -⟩ := readTicksFrom_succeeds hseed hsound₁ hsorted htries.typed
          (ht ▸ hstarts) hanswers hdelivers hclean hvisit
        rw [hread]
        exact ⟨rfl, fun h => absurd rfl h⟩

/-- **Failures publish exactly what was proved.** A traversal that stops shows its visitor the
recorded ticks of its window that were proved before the failure or by it, with the slots of the
whole stream and counts within `u64`; reads that collect their result return all of it or an error;
and an operation that does not complete leaves a fresh selection. -/
theorem failures_publish (hreached : sel.Reached sizes src w signals)
    (htries : src.Tries w sel.plan whole stored) :
    (∀ (start : Option Nat) (stop : Nat) (visitor : TickVisitor σ B) (c : σ),
      ∃ origin before rest taken eof failure ticks,
        whole = before ++ rest ∧
        (origin = none ∧ before = [] ∨ ∃ p, origin = some p ∧ stored p rest) ∧
        Handed src sel.plan stop origin before taken eof failure ∧
        ticks.Pairwise (· < ·) ∧
        (∀ τ, τ ∈ ticks ↔ (∃ r ∈ whole, r.time = τ) ∧ (∀ s, start = some s → s ≤ τ) ∧ τ ≤ stop ∧
          (eof = true ∨ ∃ d ∈ taken, d.Proves τ)) ∧
        (∀ τ ∈ ticks, ∀ s ∈ sel.plan.retained, countAt whole s τ ≤ u64Max) ∧
        (sel.readTicksFrom sizes src start stop visitor c).2.2 =
          ((sweep visitor c (views w sel.plan whole ticks)).1,
            failing (sweep visitor c (views w sel.plan whole ticks)).2 failure) ∧
        ((sel.readTicksFrom sizes src start stop visitor c).2.2.2 ≠ .ok .continue →
          (sel.readTicksFrom sizes src start stop visitor c).1 = sel.cleared)) ∧
    (∀ t, (sel.samples sizes src t).2 = .ok (signals.map (w.sampleAt whole t)) ∨
      ∃ e, sel.samples sizes src t = (sel.cleared, .error e)) ∧
    (∀ times, (sel.samplesAt sizes src times).2 =
        .ok (times.map fun t => (t, signals.map (w.sampleAt whole t))) ∨
      ∃ e, sel.samplesAt sizes src times = (sel.cleared, .error e)) ∧
    (∀ range, (sel.traces sizes src range).2 = .ok (sel.tracesOf whole range) ∨
      ∃ e, sel.traces sizes src range = (sel.cleared, .error e)) ∧
    (∀ (range : TimeRange) (visitor : ScanVisitor σ B) (c : σ),
      (sel.scanEach sizes src range visitor c).2.2 ≠ .ok .continue →
        (sel.scanEach sizes src range visitor c).1 = sel.cleared) ∧
    (∀ (t : Nat) (visitor : σ → Sample → σ × ControlFlow B) (c : σ),
      (sel.visitSamples sizes src t visitor c).2.2 ≠ .ok .continue →
        (sel.visitSamples sizes src t visitor c).1 = sel.cleared) ∧
    (∀ (range : TimeRange) (drivers : List Nat) (visitor : QueryVisitor σ B) (c : σ),
      validateIndices signals.length drivers = .ok () →
      (sel.query sizes src range drivers visitor c).2.2 ≠ .ok .continue →
        (sel.query sizes src range drivers visitor c).1 = sel.cleared) ∧
    Selection.new w signals = .ok sel.cleared := by
  have hsound := hreached.sound htries
  have hbounded := hreached.bounded htries
  have hfresh := hreached.fresh
  have hwaveform := hreached.waveform_eq
  have hsignals := hreached.signals_eq
  subst hwaveform hsignals
  refine ⟨readTicksFrom_publishes htries hsound hbounded, fun t => ?_, fun times => ?_,
    fun range => ?_,
    fun range visitor c hstop => ?_, fun t visitor c hstop => ?_,
    fun range drivers visitor c hdrivers hstop => ?_, hfresh⟩
  · rcases samples_read (t := t) htries hsound with ⟨sel', hread, -⟩ | ⟨-, e, hread⟩
    · exact .inl (by rw [hread]; rfl)
    · exact .inr ⟨e, hread⟩
  · rcases samplesAt_read htries hsound with
      ⟨sel', hread, -⟩ | ⟨-, e, hread⟩
    · exact .inl (by rw [hread]; rfl)
    · exact .inr ⟨e, hread⟩
  · rcases traces_read htries hsound with
      ⟨sel', hread, -⟩ | ⟨-, e, hread⟩
    · exact .inl (by rw [hread])
    · exact .inr ⟨e, hread⟩
  · rcases hvisit : visit visitor c (sel.emissions whole range) with ⟨c', flow⟩
    rcases scanEach_read htries hsound hvisit with
      ⟨sel', hread, -, -, hcleared⟩ | ⟨-, c'', outcome, hread, -⟩
    · rw [hread] at hstop ⊢
      exact hcleared fun hgoes => hstop (by rw [hgoes])
    · rw [hread]
  · rcases hvisit : visit visitor c (sel.sampleAt whole t) with ⟨c', flow⟩
    rcases visitSamples_read htries hsound hvisit with
      ⟨sel', hread, -, -, hcleared⟩ | ⟨-, e, hread⟩
    · rw [hread] at hstop ⊢
      exact hcleared fun hgoes => hstop (by rw [hgoes])
    · rw [hread]
  · rcases hvisit : visitContexts visitor c (sel.contexts whole range drivers) with ⟨c', outcome⟩
    rcases query_read htries hsound hdrivers hvisit with
      ⟨sel', hread, -, -, hcleared⟩ | ⟨-, c'', outcome', hread, -⟩
    · rw [hread] at hstop ⊢
      exact hcleared hstop
    · rw [hread]

/-- A visitor that keeps what it sees sees all the ticks. -/
theorem sweep_push {B : Type} (seen xs : List (Nat × List Slot)) :
    sweep (B := B) (fun seen t slots => (seen ++ [(t, slots)], .ok .continue)) seen xs =
      (seen ++ xs, .ok .continue) := by
  induction xs generalizing seen with
  | nil => rw [sweep, List.append_nil]
  | cons x xs ih =>
    simp only [sweep]
    rw [ih, List.append_assoc, List.singleton_append]

/-- The records of the bus, whose read fails after the first three. -/
def busCut : Source := .memory busRecords (some 3) (.io "failure")

/-- The read of the bus fails inside tick 5. Tick 2 is published before, with the slots of the whole
stream, and the failure ends the traversal with a fresh selection; rows are not returned at all. -/
theorem failures_publish_bus :
    let keep : TickVisitor (List (Nat × List Slot)) Unit :=
      fun seen t slots => (seen ++ [(t, slots)], .ok .continue)
    let read := busSelection.readTicksFrom ⟨0, 0⟩ busCut none 9 keep []
    read.2.2.1 = views busWaveform busSelection.plan busRecords [2] ∧
      read.2.2.2 = .error (.io "failure") ∧ read.1 = busSelection.cleared ∧
      (∃ e, busSelection.samplesAt ⟨0, 0⟩ busCut [2, 5] = (busSelection.cleared, .error e)) ∧
      Selection.new busWaveform [bus, busLow, strobe, bus] = .ok busSelection.cleared := by
  intro keep read
  have hreached : busSelection.Reached ⟨0, 0⟩ busCut busWaveform [bus, busLow, strobe, bus] :=
    .new (busSelection_reached ⟨0, 0⟩).fresh
  have htries : busCut.Tries busWaveform busSelection.plan busRecords fun _ _ => False :=
    memory_tries busSource_serves.chronological busSource_serves.typed
      busSource_serves.span
  obtain ⟨hticks, -, hrows, -, -, -, -, hfresh⟩ :=
    failures_publish (σ := List (Nat × List Slot)) (B := Unit) hreached htries
  obtain ⟨-, -, -, -, -, failure, ticks, -, -, -, -, -, -, hread, hcleared⟩ := hticks none 9 keep []
  have hseen : read.2.2.1.map Prod.fst = [2] := by decide +kernel
  have herror : read.2.2.2 = .error (.io "failure") := by decide +kernel
  have hviews : read.2.2.1 = views busWaveform busSelection.plan busRecords ticks := by
    rw [hread, sweep_push, List.nil_append]
  have htwo : ticks = [2] := by
    rw [hviews, views, List.map_map] at hseen
    exact (List.map_id' ticks).symm.trans hseen
  have hstops : read.2.2.2 ≠ .ok .continue := by
    intro h
    rw [herror] at h
    cases h
  refine ⟨htwo ▸ hviews, herror, hcleared hstops, ?_, hfresh⟩
  refine (hrows [2, 5]).resolve_left fun h => ?_
  have hfails : (busSelection.samplesAt ⟨0, 0⟩ busCut [2, 5]).2.toBool = false := by decide +kernel
  rw [h] at hfails
  cases hfails

end
end Ondas.Query
