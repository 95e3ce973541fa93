import Mathlib.Algebra.Order.BigOperators.Group.List
import Mathlib.Algebra.Order.Group.Nat
import Ondas.Query.Alike
import Ondas.Query.Native

/-!
# Reading from a tick

A native reader is told the tick to read from. Its position at a record is the tick of that record,
so it stands for the records behind it only at the first record of a tick. That is where a traversal
keeps one (`consume_firsts`), so under a traversal the reader is one that has positions nowhere
else: the reader that seeks in a stream (`Source.seeking`), which serves the stream
(`seeking_serves`).
-/

namespace Ondas.Query

open Library
open Vcd (Position)

/-! ## Windows of a stream -/

/-- The records of a stream from a tick on. -/
def fromTick (start : Nat) (recs : List Record) : List Record :=
  recs.filter fun r => decide (start ≤ r.time)

/-- The records of a stream in a window. -/
def between (start stop : Nat) (recs : List Record) : List Record :=
  recs.filter fun r => decide (start ≤ r.time ∧ r.time ≤ stop)

section
variable {recs : List Record} {start stop t : Nat}

/-- The records up to an end are those not after it. -/
theorem upTo_eq_filter (hsorted : Chronological recs) :
    upTo stop recs = recs.filter fun r => decide (r.time ≤ stop) := by
  conv_rhs => rw [← upTo_append_past stop recs]
  rw [List.filter_append, List.filter_eq_self.2 fun r hr => decide_eq_true (upTo_le r hr),
    List.filter_eq_nil_iff.2, List.append_nil]
  intro r hr
  have := past_gt hsorted r hr
  simpa using this

theorem fromTick_chronological (hsorted : Chronological recs) :
    Chronological (fromTick start recs) :=
  hsorted.sublist List.filter_sublist

theorem fromTick_zero : fromTick 0 recs = recs := List.filter_eq_self.2 fun r _ => by simp

/-- A window is a first part of what its start leaves. -/
theorem between_eq (hsorted : Chronological recs) :
    between start stop recs = upTo stop (fromTick start recs) := by
  rw [upTo_eq_filter (fromTick_chronological hsorted), fromTick, List.filter_filter]
  refine List.filter_congr fun r _ => ?_
  rw [← Bool.decide_and]
  exact decide_eq_decide.2 and_comm

/-- What is ahead of a tick, when the records before it come first. -/
theorem fromTick_append {front back : List Record} (hfront : ∀ r ∈ front, r.time < t)
    (hback : ∀ r ∈ back, t ≤ r.time) : fromTick t (front ++ back) = back := by
  unfold fromTick
  rw [List.filter_append, List.filter_eq_nil_iff.2, List.nil_append,
    List.filter_eq_self.2 fun r hr => decide_eq_true (hback r hr)]
  intro r hr
  have := hfront r hr
  simpa using this

/-- The records before a tick come first. -/
theorem fromTick_split (hsorted : Chronological recs) (start : Nat) :
    ∃ front, recs = front ++ fromTick start recs ∧ ∀ r ∈ front, r.time < start := by
  cases start with
  | zero => exact ⟨[], by rw [fromTick_zero, List.nil_append], fun r hr => by cases hr⟩
  | succ start =>
    have hfront : ∀ r ∈ upTo start recs, r.time < start + 1 := fun r hr =>
      Nat.lt_succ_of_le (upTo_le r hr)
    have hback : fromTick (start + 1) recs = past start recs := by
      conv_lhs => rw [← upTo_append_past start recs]
      exact fromTick_append hfront fun r hr => past_gt hsorted r hr
    exact ⟨upTo start recs, by rw [hback, upTo_append_past], hfront⟩

end

/-! ## Positions at the first records of ticks -/

/-- The delivery of a record by a native reader. -/
def Record.handed (positions : Bool) (r : Record) : Delivery :=
  .record r.base (.ok r.value) r.time (if positions then some ⟨r.time, r.time, false⟩ else none)

/-- The deliveries of records after a tick, with positions at the first records of ticks. -/
def firsts (positions : Bool) : Option Nat → List Record → List Delivery
  | _, [] => []
  | previous, r :: rest =>
    r.handed (positions && decide (previous ≠ some r.time)) :: firsts positions (some r.time) rest

section
variable {positions : Bool} {previous : Option Nat} {recs : List Record}

/-- The positions that are handed out with the records do not change them. -/
@[simp] theorem decoded_firsts : decoded (firsts positions previous recs) = recs := by
  induction recs generalizing previous with
  | nil => rfl
  | cons r recs ih =>
    rw [firsts, decoded_cons, ih]
    rfl

/-- Records are all that is delivered. -/
theorem mem_firsts {d : Delivery} (h : d ∈ firsts positions previous recs) :
    ∃ (r : Record) (shown : Bool), d = r.handed shown := by
  induction recs generalizing previous with
  | nil => cases h
  | cons r recs ih =>
    rcases List.mem_cons.1 h with rfl | h
    · exact ⟨r, _, rfl⟩
    · exact ih h

/-- Records in order stay so with their positions. -/
theorem firsts_ordered {t : Nat} (hsorted : Chronological recs) (ht : ∀ r ∈ recs, t ≤ r.time) :
    Ordered t (firsts positions previous recs) := by
  induction recs generalizing previous t with
  | nil => trivial
  | cons r recs ih =>
    obtain ⟨hle, hsorted⟩ := List.pairwise_cons.1 hsorted
    exact ⟨ht r List.mem_cons_self, ih hsorted hle⟩

/-- A position is at the first record of its tick. -/
theorem firsts_located (hsorted : Chronological recs) {pre post : List Delivery} {base time : Nat}
    {v : Value} {p : Position}
    (h : firsts positions previous recs = pre ++ .record base (.ok v) time (some p) :: post) :
    p = ⟨time, time, false⟩ ∧ (previous = some time → pre ≠ []) ∧
      ∀ r ∈ decoded pre, r.time < time := by
  induction recs generalizing previous pre with
  | nil => cases pre <;> cases h
  | cons r recs ih =>
    obtain ⟨hle, hsorted⟩ := List.pairwise_cons.1 hsorted
    rw [firsts] at h
    cases pre with
    | nil =>
      obtain ⟨hhead, -⟩ := List.cons.inj h
      simp only [Record.handed, Delivery.record.injEq, Except.ok.injEq] at hhead
      obtain ⟨-, -, rfl, hp⟩ := hhead
      split at hp
      · next hshown =>
        cases hp
        simp only [Bool.and_eq_true, decide_eq_true_eq] at hshown
        exact ⟨rfl, fun hprevious => absurd hprevious hshown.2, fun r hr => by cases hr⟩
      · cases hp
    | cons d pre =>
      obtain ⟨rfl, hrest⟩ := List.cons.inj h
      have htail : firsts positions (some r.time) recs =
          pre ++ .record base (.ok v) time (some p) :: post := hrest
      obtain ⟨hp, hfirst, hbefore⟩ := ih hsorted htail
      have hmem : ⟨base, time, v⟩ ∈ recs := by
        have hdecoded := congrArg decoded htail
        rw [decoded_firsts, decoded_append, decoded_cons] at hdecoded
        rw [hdecoded]
        exact List.mem_append_right _ (List.mem_append_left _ (List.mem_singleton.2 rfl))
      refine ⟨hp, fun _ => List.cons_ne_nil _ _, fun r' hr' => ?_⟩
      rw [decoded_cons] at hr'
      rcases List.mem_append.1 hr' with hr' | hr'
      · obtain rfl : r' = r := List.mem_singleton.1 hr'
        refine Nat.lt_of_le_of_ne (hle _ hmem) fun heq => ?_
        -- At the tick of the record before it there is no position.
        cases pre with
        | nil => exact hfirst (congrArg some heq) rfl
        | cons d pre =>
          have hd :
              d ∈ firsts positions (some r'.time) recs := by rw [htail]; exact List.mem_cons_self
          obtain ⟨r'', shown, rfl⟩ := mem_firsts hd
          have hlt : r''.time < time := hbefore r'' (by
            rw [decoded_cons]
            exact List.mem_append_left _ (List.mem_singleton.2 rfl))
          have hmem' : r'' ∈ recs := by
            have hdecoded := congrArg decoded htail
            rw [decoded_firsts, List.cons_append, decoded_cons] at hdecoded
            rw [hdecoded]
            exact List.mem_append_left _ (List.mem_singleton.2 rfl)
          have := hle r'' hmem'
          omega
      · exact hbefore r' hr'

end

section
variable {σ B : Type} (tr : Traversal σ B) {st : Tally σ} {base time : Nat}
    {value : Except Error Value}

/-- The position of a record at the pending tick is not looked at. -/
theorem consume_pending (h : st.pendingTime = some time) (p q : Option Position) :
    consume tr st (.record base value time p) = consume tr st (.record base value time q) := by
  have hconsider : ∀ p, st.considerCheckpoint tr time p = st := by
    intro p
    unfold Tally.considerCheckpoint
    split
    · rw [if_neg]
      rintro ⟨hle, hlt⟩
      rw [h, Option.all_some, decide_eq_true_eq] at hlt
      omega
    · rfl
  have hopen : (some time).filter (fun previous => decide (previous ≠ time)) = none := by simp
  simp only [consume, h, hopen, Tally.take, hconsider]

/-- A record that is taken leaves its tick pending. -/
theorem consume_continue {st' : Tally σ} {p : Option Position}
    (h : consume tr st (.record base value time p) = (st', .continue)) :
    st'.pendingTime = some time := by
  have htake : ∀ {st st' : Tally σ}, st.take tr base value time p = (st', .continue) →
      st'.pendingTime = some time := by
    intro st st' h
    unfold Tally.take at h
    split at h
    · cases h
    · dsimp only at h
      split at h
      · cases h
      · cases h
        rfl
  simp only [consume] at h
  split at h
  · exact htake h
  · split at h
    · exact htake h
    · cases h

/-- A traversal looks at the positions of the first records of ticks only. -/
theorem consume_firsts (positions : Bool) (previous : Option Nat) (recs : List Record)
    (h : ∀ t, previous = some t → st.pendingTime = some t) :
    visit (consume tr) st (firsts positions previous recs) =
      visit (consume tr) st (recs.map (Record.handed positions)) := by
  induction recs generalizing st previous with
  | nil => rfl
  | cons r recs ih =>
    have hhead : consume tr st (r.handed (positions && decide (previous ≠ some r.time))) =
        consume tr st (r.handed positions) := by
      by_cases hsame : previous = some r.time
      · exact consume_pending tr (h _ hsame) _ _
      · rw [decide_eq_true hsame, Bool.and_true]
    rw [firsts, List.map_cons, visit, visit, hhead]
    rcases hconsumed : consume tr st (r.handed positions) with ⟨st', _ | b⟩
    · refine ih (some r.time) fun t ht => ?_
      cases ht
      exact consume_continue tr hconsumed
    · rfl

end

/-! ## The reader that seeks in a stream -/

/-- A reader that seeks the tick of a position in a stream, with positions at the first records of
ticks and after an end. -/
def Source.seeking (backend : String) (recs : List Record) : Source where
  backend := backend
  read := fun bases stop origin callback c =>
    match visit callback c (firsts (cacheable bases) none
      (between ((origin.map Position.offset).getD 0) stop (selected bases recs))) with
    | (c, .continue) => (c, .ok .continue,
        if cacheable bases && decide (stop + 1 ≤ u64Max) then some ⟨stop + 1, stop, false⟩
        else none)
    | (c, .break b) => (c, .ok (.break b), none)
  parallelPrefix := fun _ _ => none

/-- A position stands for the records from its tick on. -/
def Ahead (whole : List Record) (p : Position) (rest : List Record) : Prop :=
  rest = fromTick p.offset whole ∧ p.offset ≤ p.time + 1

section
variable {w : Waveform} {plan : Plan} {recs whole : List Record} {backend : String}
    {start stop : Nat}

/-- What is delivered from a tick. -/
theorem seeking_delivers (hsorted : Chronological whole) (positions : Bool)
    (hle : start ≤ stop + 1) {final : Option Position}
    (hfinal : ∀ p, final = some p → p = ⟨stop + 1, stop, false⟩) :
    Delivers (Ahead whole) stop (fromTick start whole)
      (firsts positions none (between start stop whole)) final := by
  obtain ⟨front, hsplit, hfront⟩ := fromTick_split hsorted start
  have hahead := @fromTick_chronological whole start hsorted
  have hupTo := upTo_chronological hahead stop
  rw [between_eq hsorted]
  refine ⟨decoded_firsts, fun d hd base e time p heq => ?_, fun t ht => ?_,
    fun pre base v time p post hds => ?_, fun p hp => ?_, fun τ hτ => ?_⟩
  · obtain ⟨r, shown, rfl⟩ := mem_firsts hd
    cases heq
  · exact firsts_ordered hupTo fun r hr => ht r ((List.takeWhile_sublist _).subset hr)
  · obtain ⟨rfl, -, hbefore⟩ := firsts_located hupTo hds
    refine ⟨⟨?_, Nat.le_succ time⟩, rfl, fun τ hτ => ?_⟩
    · have hdecoded := congrArg decoded hds
      rw [decoded_firsts, decoded_append, decoded_cons] at hdecoded
      have hall : whole = (front ++ Query.decoded pre) ++
          (⟨base, time, v⟩ :: Query.decoded post ++ past stop (fromTick start whole)) := by
        conv_lhs => rw [hsplit, ← upTo_append_past stop (fromTick start whole), hdecoded]
        simp [Delivery.record?]
      have hback : Chronological (⟨base, time, v⟩ :: (Query.decoded post ++
          past stop (fromTick start whole))) :=
        (hall ▸ hsorted).sublist (List.sublist_append_right _ _)
      have hstart : start ≤ time := by
        have hmem : (⟨base, time, v⟩ : Record) ∈ fromTick start whole := by
          have hwindow : (⟨base, time, v⟩ : Record) ∈ upTo stop (fromTick start whole) := by
            rw [hdecoded]
            simp [Delivery.record?]
          exact ((mem_upTo hahead).1 hwindow).1
        simpa using (List.mem_filter.1 hmem).2
      conv_rhs => rw [hall]
      refine (fromTick_append (fun r hr => ?_) fun r hr => ?_).symm
      · rcases List.mem_append.1 hr with hr | hr
        · exact Nat.lt_of_lt_of_le (hfront r hr) hstart
        · exact hbefore r hr
      · rcases List.mem_cons.1 hr with rfl | hr
        · exact Nat.le_refl _
        · exact (List.pairwise_cons.1 hback).1 r hr
    · have hmem : .tick τ ∈ firsts positions none (upTo stop (fromTick start whole)) := by
        rw [hds]
        exact List.mem_append_left _ hτ
      obtain ⟨r, shown, hr⟩ := mem_firsts hmem
      cases hr
  · obtain rfl := hfinal p hp
    refine ⟨⟨?_, Nat.le_refl _⟩, Nat.le_refl _, fun τ hτ => ?_⟩
    · have hall : whole = (front ++ upTo stop (fromTick start whole)) ++
          past stop (fromTick start whole) := by
        rw [List.append_assoc, upTo_append_past, ← hsplit]
      conv_rhs => rw [hall]
      refine (fromTick_append (fun r hr => ?_) fun r hr => past_gt hahead r hr).symm
      rcases List.mem_append.1 hr with hr | hr
      · exact Nat.lt_of_lt_of_le (hfront r hr) hle
      · exact Nat.lt_succ_of_le (upTo_le r hr)
    · obtain ⟨r, shown, hr⟩ := mem_firsts hτ
      cases hr
  · obtain ⟨r, shown, hr⟩ := mem_firsts hτ
    cases hr

/-- Fewer records count fewer events. -/
theorem counted_selected (h : Counted recs) (bases : List Signal) :
    Counted (selected bases recs) := by
  intro base t
  refine Nat.le_trans ?_ (h base t)
  exact List.Sublist.sum_le_sum ((List.filter_sublist.filter _).map _) fun n _ => Nat.zero_le n

/-- **A stream is served from its ticks.** -/
theorem seeking_serves (hsorted : Chronological recs) (htyped : Typed w recs)
    (hspan : ∀ r ∈ recs, r.time ≤ (w.timeSpan.map TimeSpan.last).getD u64Max)
    (hcounts : Counted recs) :
    (Source.seeking backend recs).Serves w plan (selected plan.bases recs)
      (Ahead (selected plan.bases recs)) := by
  have hselected : Chronological (selected plan.bases recs) := hsorted.sublist List.filter_sublist
  have hanswers : ∀ stop origin, (Source.seeking backend recs).Answers plan.bases stop origin
      (firsts (cacheable plan.bases) none
        (between ((origin.map Position.offset).getD 0) stop (selected plan.bases recs)))
      (.ok (if cacheable plan.bases && decide (stop + 1 ≤ u64Max) then
        some ⟨stop + 1, stop, false⟩ else none)) := by
    intro stop origin σ B callback c
    unfold Source.seeking
    dsimp only
    rcases visit callback c _ with ⟨c', _ | b⟩ <;> rfl
  have hfinal : ∀ stop (p : Position), (if cacheable plan.bases && decide (stop + 1 ≤ u64Max) then
      some (⟨stop + 1, stop, false⟩ : Position) else none) = some p →
        p = ⟨stop + 1, stop, false⟩ := by
    intro stop p hp
    split at hp
    · cases hp; rfl
    · cases hp
  refine ⟨⟨⟨hselected, fun r hr => htyped r (List.mem_filter.1 hr).1,
    fun r hr => hspan r (List.mem_filter.1 hr).1, fun t samples p hprefix => by cases hprefix⟩,
    fun stop => ⟨_, _, hanswers stop none, ?_⟩, fun p done rest stop _ hstored hle =>
    ⟨_, _, hanswers stop (some p), ?_⟩⟩, counted_selected hcounts _⟩
  · have := seeking_delivers hselected (cacheable plan.bases) (Nat.zero_le (stop + 1)) (hfinal stop)
    rwa [fromTick_zero] at this
  · obtain ⟨rfl, hoffset⟩ := hstored
    exact seeking_delivers hselected (cacheable plan.bases) (by omega) (hfinal stop)

end

/-! ## Readers that agree under a traversal -/

/-- Two readers hand the same deliveries to every traversal of some histories, up to positions that
it does not look at. -/
structure Source.Agrees (src src' : Source) (bases : List Signal) : Prop where
  backend : src.backend = src'.backend
  parallelPrefix : src.parallelPrefix = src'.parallelPrefix
  read : ∀ {σ B : Type} (tr : Traversal σ B) (stop : Nat) (origin : Option Position) (st : Tally σ),
    src.read bases stop origin (consume tr) st = src'.read bases stop origin (consume tr) st

section
variable {sizes : Sizes} {src src' : Source} {sel : Selection}

/-- Readers that agree give the same traversals. -/
theorem Source.Agrees.readTicksFrom (h : src.Agrees src' sel.plan.bases) {σ B : Type}
    (start : Option Nat) (stop : Nat) (visitor : TickVisitor σ B) (c : σ) :
    sel.readTicksFrom sizes src start stop visitor c =
      sel.readTicksFrom sizes src' start stop visitor c := by
  have hseed : sel.seed sizes src start = sel.seed sizes src' start := by
    unfold Selection.seed
    rw [h.parallelPrefix]
  have hplan : (sel.seed sizes src' start).plan = sel.plan :=
    show (sel.seed sizes src' start).cleared.plan = sel.cleared.plan by rw [Selection.seed_cleared]
  unfold Selection.readTicksFrom
  simp only [hseed, h.backend, hplan, h.read]

/-- Sources that agree on the histories of a plan are scanned alike. -/
theorem Source.Agrees.scanEach (h : src.Agrees src' sel.plan.bases) {σ B : Type} (range : TimeRange)
    (visitor : ScanVisitor σ B) (c : σ) :
    sel.scanEach sizes src range visitor c = sel.scanEach sizes src' range visitor c := by
  simp only [Selection.scanEach, h.readTicksFrom]

theorem Source.Agrees.samplesAt (h : src.Agrees src' sel.plan.bases) (times : List Nat) :
    sel.samplesAt sizes src times = sel.samplesAt sizes src' times := by
  simp only [Selection.samplesAt, h.readTicksFrom]

/-- Sources that agree on the histories of a plan are queried alike. -/
theorem Source.Agrees.query (h : src.Agrees src' sel.plan.bases) {σ B : Type} (range : TimeRange)
    (drivers : List Nat) (visitor : QueryVisitor σ B) (c : σ) :
    sel.query sizes src range drivers visitor c = sel.query sizes src' range drivers visitor c := by
  simp only [Selection.query, h.readTicksFrom]

end
end Ondas.Query
