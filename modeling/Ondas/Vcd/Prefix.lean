import Ondas.Query.Snapshots
import Ondas.Vcd.Ranges

/-!
# The parallel prefix

`parallelPrefix` computes the state of whole bit and real histories at an end tick from the chunks
of a body. A worker walks each range up to the end and keeps a summary of each history
(`ChunkValue`): its first value, its last one and the last change that shows in the range. The
summaries are joined in the order of the ranges, where the first value of a range is a change when
it differs from the last value before it.

A summary is that of the last writes of the ticks (`ChunkValue.Tracks`), and a join takes it after
the state of the records before (`joinValues_settled`), so what is computed is the reference of the
records up to the end, and the position that is kept is one after which the others remain
(`parallelPrefix_serial`).
-/

namespace Ondas.Vcd

open Library
open Query (Sample Waveform history recorded)

/-! ## Chunk summaries -/

/-- `ChunkValue`. -/
structure ChunkValue where
  first : Option Value
  firstTime : Nat
  last : Value
  lastChange : Option Nat
  tick : Nat
  pending : Value
  deriving DecidableEq, Repr

/-- `ChunkValue::finish_tick`. -/
def ChunkValue.finishTick (c : ChunkValue) : ChunkValue :=
  match c.first with
  | none => { c with first := some c.pending, last := c.pending }
  | some _ =>
    if c.last.sameValue c.pending then c
    else { c with last := c.pending, lastChange := some c.tick }

/-- `ChunkValue::record`. -/
def ChunkValue.record (c : ChunkValue) (time : Nat) (v : Value) : ChunkValue :=
  if time = c.tick then { c with pending := v }
  else { c.finishTick with tick := time, pending := v }

/-- The visitor of a worker, over the summaries by history. -/
def recordValue (values : Nat → Option ChunkValue) (rec : Record) : Nat → Option ChunkValue :=
  let v := rec.value.toOwned
  Function.update values rec.index <| some <|
    match values rec.index with
    | some previous => previous.record rec.time v
    | none =>
      { first := none, firstTime := rec.time, last := v, lastChange := none, tick := rec.time
        pending := v }

/-- `ChunkSamples`. -/
structure ChunkSamples where
  span : Option TimeSpan
  values : Nat → Option ChunkValue
  position : Position

/-- A worker of `parallel_prefix`: its range up to the end, with the ticks that are still open
finished. A walk that ends well has set its position. -/
def Reader.chunkSamples (r : Reader) (fault : Option (Nat × String)) (signals : List Signal)
    (stop : Nat) (range : Nat × Nat) : Except Error ChunkSamples :=
  let tokens := tokensFrom (r.bytes.take range.2) ⟨none, fault⟩ range.1
  match walkInner (B := Unit) (r.queryArgs signals stop)
      (onRecord fun values rec => (recordValue values rec, .continue)) (fun _ => none)
      (r.walk tokens false none) with
  | (values, .finished (.ok w)) =>
    .ok ⟨w.span, fun index => (values index).map ChunkValue.finishTick, w.position.getD r.bodyStart⟩
  | (_, .finished (.error e)) => .error e
  | (_, .broke _) | (_, .exhausted) => .error (malformed "")

/-! ## Joining the chunks -/

/-- The states by history of the chunks joined so far. -/
abbrev JoinedValues := Nat → Option (Value × Option Nat)

/-- Join the summary of one history. -/
def joinValue (values : JoinedValues) (chunk : Nat → Option ChunkValue) (index : Nat) :
    Option JoinedValues :=
  match chunk index with
  | none => some values
  | some part =>
    match part.first with
    | none => none
    | some first =>
      let change :=
        match values index with
        | some (last, changedAt) =>
          part.lastChange.or (if last.sameValue first then changedAt else some part.firstTime)
        | none => part.lastChange
      some (Function.update values index (some (part.last, change)))

/-- The loop over the histories of a chunk, which are selected. They are joined each alone, so their
order does not matter. -/
def joinValues (chunk : Nat → Option ChunkValue) : List Nat → JoinedValues → Option JoinedValues
  | [], values => some values
  | index :: indices, values =>
    match joinValue values chunk index with
    | none => none
    | some values => joinValues chunk indices values

/-- The variables of the loop over the chunks. -/
structure Joined where
  previous : Option Nat
  resume : Option Position
  lastPosition : Option Position
  values : JoinedValues

/-- Join one chunk that ends at `boundary`. A cut through a tick is left to the serial reader. -/
def Joined.chunk (indices : List Nat) (j : Joined) (boundary : Nat) (chunk : ChunkSamples) :
    Option Joined :=
  let resume :=
    if j.resume.isNone && chunk.position.offset < boundary then some chunk.position else j.resume
  if chunk.span.any fun span => j.previous.any fun time => span.first ≤ time then none
  else
    match joinValues chunk.values indices j.values with
    | none => none
    | some values =>
      some ⟨(chunk.span.map TimeSpan.last).or j.previous, resume, some chunk.position, values⟩

/-- The loop over the chunks with the cuts they end at. -/
def joinLoop (indices : List Nat) : Joined → List (Except Error ChunkSamples × Nat) → Option Joined
  | j, [] => some j
  | _, (.error _, _) :: _ => none
  | j, (.ok chunk, boundary) :: chunks =>
    match j.chunk indices boundary chunk with
    | none => none
    | some j => joinLoop indices j chunks

/-! ## The budget -/

/-- `usize::checked_add`. -/
def checkedAdd (a b : Nat) : Option Nat := if a + b < 2 ^ 64 then some (a + b) else none

/-- `usize::checked_mul`. -/
def checkedMul (a b : Nat) : Option Nat := if a * b < 2 ^ 64 then some (a * b) else none

/-- The bytes of one value of a history whose values are bounded. -/
def valueWidth : Encoding → Option Nat
  | .bits width => some width
  | .real => some 8
  | .string | .event | .unsupported => none

/-- The loop of `parallel_prefix` that counts the bytes of a chunk, over the histories it has
met. -/
def prefixBytes (size : Nat) : List Nat → Nat → List Signal → Option Nat
  | _, bytes, [] => some bytes
  | selected, bytes, signal :: signals =>
    if signal.isSlice then none
    else if signal.index ∈ selected then prefixBytes size selected bytes signals
    else
      match valueWidth signal.encoding with
      | none => none
      | some width =>
        match ((checkedMul width 5).bind fun n => checkedAdd n (size + 64)).bind
          (checkedAdd bytes) with
        | none => none
        | some bytes => prefixBytes size (signal.index :: selected) bytes signals

/-- What the system answers while a prefix is read: how large a summary is in memory, whether the
threads start, and which reads of which worker fail. -/
structure PrefixEnv where
  chunkValue : Nat
  starts : Bool
  faults : Nat → Option (Nat × String)

/-- The sample of a handle. -/
def Joined.sample (j : Joined) (signal : Signal) : Sample :=
  match j.values signal.index with
  | some (v, changedAt) => .value signal v changedAt
  | none => .missing signal

/-- `parallel_prefix`. -/
def Reader.parallelPrefix (r : Reader) (env : PrefixEnv) (signals : List Signal) (stop : Nat) :
    Option (List Sample × Position) :=
  match r.parallel with
  | none => none
  | some source =>
    if signals.isEmpty || stop = 0 || stop < (source.lastTime + 7) / 8 then none
    else
      match (prefixBytes env.chunkValue [] 0 signals).bind fun bytes =>
          checkedMul bytes (source.cuts.length - 1) with
      | none => none
      | some bytes =>
        if 4 * 1024 * 1024 < bytes then none
        else if env.starts then
          let chunks := (windows source.cuts).mapIdx fun index range =>
            r.chunkSamples (env.faults index) signals stop range
          let indices := (signals.map Signal.index).dedup
          match joinLoop indices ⟨none, none, none,
            fun _ => none⟩ (chunks.zip source.cuts.tail) with
          | none => none
          | some joined =>
            match joined.resume.or joined.lastPosition with
            | none => none
            | some position => some (signals.map joined.sample, position)
        else none

/-! ## Summaries of histories -/

/-- A record as the queries see it. -/
def Record.plain (rec : Record) : Query.Record := ⟨rec.index, rec.time, rec.value⟩

/-- A summary tracks the writes of a history so far: the tick that is open ends with the pending
value, and the ticks before it are settled. -/
structure ChunkValue.Tracks (c : ChunkValue) (h : History Value) : Prop where
  le : ∀ e ∈ h, e.1 ≤ c.tick
  finals : h.finals = (h.before c.tick).finals ++ [(c.tick, c.pending)]
  settled : settleAll (h.before c.tick).finals none = c.first.map fun _ => (c.last, c.lastChange)
  first : (h.before c.tick).finals.head?.map Prod.snd = c.first
  firstTime : h.finals.head?.map Prod.fst = some c.firstTime
  fresh : c.first = none → c.lastChange = none
  owned : c.pending.toOwned = c.pending ∧ c.last.toOwned = c.last

/-- A summary of a whole history. -/
structure ChunkValue.Sums (c : ChunkValue) (h : History Value) : Prop where
  first : ∃ v, c.first = some v ∧ h.finals.head? = some (c.firstTime, v)
  settled : settleAll h.finals none = some (c.last, c.lastChange)
  owned : c.last.toOwned = c.last

section
variable {c : ChunkValue} {h : History Value}

/-- Finishing the open tick settles it. -/
theorem ChunkValue.Tracks.finishTick (htracks : c.Tracks h) : c.finishTick.Sums h := by
  obtain ⟨-, hfinals, hsettled, hfirst, hfirstTime, hfresh, hpending, hlast⟩ := htracks
  have hall : settleAll h.finals none =
      settle c.tick c.pending (c.first.map fun _ => (c.last, c.lastChange)) := by
    rw [hfinals, settleAll_append, hsettled]
    rfl
  cases hc : c.first with
  | none =>
    have hnil : (h.before c.tick).finals = [] := by
      rw [hc, Option.map_eq_none_iff, List.head?_eq_none_iff] at hfirst
      exact hfirst
    rw [hnil, List.nil_append] at hfinals
    rw [hfinals] at hfirstTime
    have htime : c.tick = c.firstTime := Option.some.inj hfirstTime
    have hfinish : c.finishTick = { c with first := some c.pending, last := c.pending } := by
      unfold ChunkValue.finishTick
      rw [hc]
    rw [hfinish]
    refine ⟨⟨c.pending, rfl, ?_⟩, ?_, hpending⟩
    · rw [hfinals, htime]
      rfl
    · rw [hall, hc, hfresh hc]
      rfl
  | some v =>
    have hhead : h.finals.head? = some (c.firstTime, v) := by
      rw [hc] at hfirst
      obtain ⟨e, he, hv⟩ := Option.map_eq_some_iff.1 hfirst
      obtain ⟨rest, hrest⟩ := List.head?_eq_some_iff.1 he
      rw [hrest] at hfinals
      rw [hfinals] at hfirstTime ⊢
      rw [← Option.some.inj hfirstTime, ← hv]
      rfl
    have hfinish : c.finishTick = if c.last.sameValue c.pending then c
        else { c with last := c.pending, lastChange := some c.tick } := by
      unfold ChunkValue.finishTick
      rw [hc]
    rw [hfinish, Value.sameValue_owned hlast hpending]
    rw [hc] at hall
    by_cases hsame : c.last = c.pending
    · rw [if_pos (decide_eq_true hsame)]
      refine ⟨⟨v, hc, hhead⟩, ?_, hlast⟩
      rw [hall]
      exact if_pos hsame
    · rw [if_neg (by simpa using hsame)]
      refine ⟨⟨v, hc, hhead⟩, ?_, hpending⟩
      rw [hall]
      exact if_neg hsame

/-- A record keeps a summary behind its history. -/
theorem ChunkValue.Tracks.record (htracks : c.Tracks h) (hsorted : h.Sorted) {t : Nat}
    (ht : c.tick ≤ t) {v : Value} (hv : v.toOwned = v) : (c.record t v).Tracks (h ++ [(t, v)]) := by
  have hle : ∀ e ∈ h, e.1 ≤ t := fun e he => (htracks.le e he).trans ht
  have hend : ∀ e ∈ h ++ [(t, v)], e.1 ≤ t := by
    intro e he
    rcases List.mem_append.1 he with he | he
    · exact hle e he
    · rw [List.mem_singleton.1 he]
  have hbefore : History.before (h ++ [(t, v)]) t = h.before t := by
    rw [History.before_append, History.before_none (h := [(t, v)]) (by simp), List.append_nil]
  have hfinals : History.finals (h ++ [(t, v)]) = (h.before t).finals ++ [(t, v)] :=
    History.finals_concat hsorted hle
  unfold ChunkValue.record
  split
  · next heq =>
    subst heq
    refine ⟨hend, ?_, ?_, ?_, ?_, htracks.fresh, hv, htracks.owned.2⟩
    · rw [hbefore, hfinals]
    · rw [hbefore]
      exact htracks.settled
    · rw [hbefore]
      exact htracks.first
    · have hfirstTime := htracks.firstTime
      rw [htracks.finals] at hfirstTime
      rw [hfinals]
      cases hdone : (h.before c.tick).finals with
      | nil =>
        rw [hdone] at hfirstTime
        exact hfirstTime
      | cons e rest =>
        rw [hdone] at hfirstTime
        exact hfirstTime
  · next hne =>
    have hlt : ∀ e ∈ h, e.1 < t := fun e he =>
      (htracks.le e he).trans_lt (Nat.lt_of_le_of_ne ht (Ne.symm hne))
    obtain ⟨⟨first, hfirst, hhead⟩, hsettled, howned⟩ := htracks.finishTick
    rw [History.before_all hlt] at hbefore hfinals
    refine ⟨hend, ?_, ?_, ?_, ?_, ?_, hv, howned⟩
    · rw [hbefore, hfinals]
    · rw [hbefore]
      show settleAll h.finals none = c.finishTick.first.map _
      rw [hsettled, hfirst]
      rfl
    · rw [hbefore]
      show h.finals.head?.map Prod.snd = c.finishTick.first
      rw [hfirst, hhead]
      rfl
    · have htime : c.finishTick.firstTime = c.firstTime := by
        unfold ChunkValue.finishTick
        split
        · rfl
        · split <;> rfl
      show _ = some c.finishTick.firstTime
      rw [hfinals, List.head?_append, hhead]
      rfl
    · intro hnone
      cases hfirst.symm.trans hnone

/-- The first write of a history starts its summary. -/
theorem ChunkValue.tracks_start (t : Nat) {v : Value} (hv : v.toOwned = v) :
    ChunkValue.Tracks ⟨none, t, v, none, t, v⟩ [(t, v)] := by
  have hbefore : History.before [(t, v)] t = [] := History.before_none (by simp)
  refine ⟨by simp, ?_, ?_, ?_, rfl, fun _ => rfl, hv, hv⟩
  · rw [hbefore]
    rfl
  · rw [hbefore]
    rfl
  · rw [hbefore]
    rfl

/-- The summaries of the histories of some records, while they are read. -/
def Summarizes (values : Nat → Option ChunkValue) (recs : List Record) : Prop :=
  ∀ i, values i = none ∧ history (recs.map Record.plain) i = [] ∨
    ∃ c, values i = some c ∧ c.Tracks (history (recs.map Record.plain) i) ∧
      ∃ e ∈ history (recs.map Record.plain) i, e.1 = c.tick

/-- The write of a record. -/
theorem history_plain (rec : Record) (hplain : rec.value.isEvent = false) (i : Nat) :
    history [rec.plain] i = if rec.index = i then [(rec.time, rec.value.toOwned)] else [] := by
  by_cases hi : rec.index = i
  · rw [if_pos hi]
    exact List.filterMap_cons_some (if_pos ⟨hi, hplain⟩)
  · rw [if_neg hi]
    exact List.filterMap_cons_none (if_neg fun h => hi h.1)

/-- **Summaries of a range.** The visitor summarises the histories of the records it has seen, by
induction on them. -/
theorem foldl_recordValue (recs : List Record) (hsorted : recs.Pairwise fun a b => a.time ≤ b.time)
    (hplain : ∀ rec ∈ recs, rec.value.isEvent = false) :
    Summarizes (recs.foldl recordValue fun _ => none) recs := by
  induction recs using List.reverseRecOn with
  | nil => exact fun i => .inl ⟨rfl, rfl⟩
  | append_singleton recs rec ih =>
    obtain ⟨hrecs, -, hlast⟩ := List.pairwise_append.1 hsorted
    specialize ih hrecs fun r hr => hplain r (List.mem_append_left _ hr)
    have hvalue := hplain rec (by simp)
    intro i
    rw [List.foldl_append, List.map_append, Query.history_append]
    show recordValue (recs.foldl recordValue fun _ => none) rec i = none ∧ _ ∨ ∃ c,
      recordValue (recs.foldl recordValue fun _ => none) rec i = some c ∧ _
    rw [List.map_singleton, history_plain rec hvalue]
    by_cases hi : rec.index = i
    swap
    · rw [if_neg hi, List.append_nil, recordValue, Function.update_of_ne (Ne.symm hi)]
      exact ih i
    subst hi
    rw [if_pos rfl, recordValue, Function.update_self]
    refine .inr ⟨_, rfl, ?_, (rec.time, rec.value.toOwned), by simp, ?_⟩
    · rcases ih rec.index with ⟨hnone, hnil⟩ | ⟨c, hsome, htracks, e, he, heq⟩
      · rw [hnone, hnil]
        exact ChunkValue.tracks_start rec.time (Value.toOwned_idem _)
      · rw [hsome]
        refine htracks.record (Query.history_sorted (List.pairwise_map.2 hrecs) _) ?_
          (Value.toOwned_idem _)
        obtain ⟨r, hr, -, -, rfl⟩ := Query.mem_history he
        obtain ⟨r', hr', rfl⟩ := List.mem_map.1 hr
        exact heq ▸ hlast r' hr' rec (List.mem_singleton_self rec)
    · cases (recs.foldl recordValue fun _ => none) rec.index with
      | none => rfl
      | some previous =>
        show rec.time = (previous.record rec.time rec.value.toOwned).tick
        unfold ChunkValue.record
        split
        · assumption
        · rfl

/-! ## Joined summaries -/

/-- The state of a history after some records. -/
def settledState (recs : List Record) (i : Nat) : Option (Value × Option Nat) :=
  settleAll (history (recs.map Record.plain) i).finals none

/-- The state of a history after a summary is joined. -/
def joinState (state : Option (Value × Option Nat)) :
    Option ChunkValue → Option (Value × Option Nat)
  | none => state
  | some part =>
    some (part.last,
      match state with
      | some (last, changedAt) =>
        part.lastChange.or <|
          if part.first.any fun first => last.sameValue first then changedAt else some
            part.firstTime
      | none => part.lastChange)

/-- The loop over the histories joins each of them. -/
theorem joinValues_eq {chunk : Nat → Option ChunkValue} (hfirst : ∀ i part, chunk i = some part →
    part.first.isSome = true) {indices : List Nat} (hnodup : indices.Nodup) : ∀ values,
    joinValues chunk indices values =
      some fun i => if i ∈ indices then joinState (values i) (chunk i) else values i := by
  induction indices with
  | nil => exact fun values => congrArg some (funext fun i => (if_neg List.not_mem_nil).symm)
  | cons index indices ih =>
    intro values
    obtain ⟨hnot, hrest⟩ := List.nodup_cons.1 hnodup
    have hone : joinValue values chunk index =
        some (Function.update values index (joinState (values index) (chunk index))) := by
      unfold joinValue
      cases hpart : chunk index with
      | none =>
        show some values = some (Function.update values index (values index))
        rw [Function.update_eq_self]
      | some part =>
        obtain ⟨first, hsome⟩ := Option.isSome_iff_exists.1 (hfirst index part hpart)
        simp only [hsome, joinState, Option.any_some]
    rw [joinValues, hone]
    dsimp only
    rw [ih hrest]
    congr 1
    funext i
    by_cases hi : i = index
    · subst hi
      rw [if_neg hnot, if_pos (List.mem_cons_self ..), Function.update_self]
    · rw [Function.update_of_ne hi]
      simp only [List.mem_cons, hi, false_or]

/-- The summary of a history, joined to what the records before leave, is what all records leave. -/
theorem joinState_settled {done recs : List Record} {i : Nat} {c : ChunkValue}
    (hsums : c.Sums (history (recs.map Record.plain) i))
    (hlater : ∀ r ∈ done, ∀ r' ∈ recs, r.time < r'.time) :
    joinState (settledState done i) (some c) = settledState (done ++ recs) i := by
  obtain ⟨⟨v, hfirst, hhead⟩, hsettled, howned⟩ := hsums
  have hfinals : (history ((done ++ recs).map Record.plain) i).finals =
      (history (done.map Record.plain) i).finals ++ (history (recs.map Record.plain) i).finals := by
    rw [List.map_append, Query.history_append]
    refine History.finals_append fun e he e' he' => ?_
    obtain ⟨r, hr, -, -, rfl⟩ := Query.mem_history he
    obtain ⟨r', hr', -, -, rfl⟩ := Query.mem_history he'
    obtain ⟨q, hq, rfl⟩ := List.mem_map.1 hr
    obtain ⟨q', hq', rfl⟩ := List.mem_map.1 hr'
    exact hlater q hq q' hq'
  obtain ⟨rest, hrest⟩ := List.head?_eq_some_iff.1 hhead
  have hall : settledState (done ++ recs) i =
      settleAll (history (recs.map Record.plain) i).finals (settledState done i) := by
    rw [settledState, hfinals, settleAll_append]
    rfl
  rw [hall]
  cases hstate : settledState done i with
  | none =>
    rw [hsettled]
    rfl
  | some state =>
    obtain ⟨w, before⟩ := state
    rw [hrest] at hsettled ⊢
    have hw : w.toOwned = w := by
      refine settleAll_forall (P := fun v => v.toOwned = v) (fun e he => ?_) (fun e he =>
        ?_) _ hstate
      · obtain ⟨r, -, -, -, rfl⟩ := Query.mem_history ((History.finals_sublist _).subset he)
        exact Value.toOwned_idem _
      · cases he
    have hv : v.toOwned = v := by
      have hmem : (c.firstTime, v) ∈ (history (recs.map Record.plain) i).finals := hrest ▸ .head _
      obtain ⟨r, -, -, -, heq⟩ := Query.mem_history ((History.finals_sublist _).subset hmem)
      rw [show v = r.value.toOwned from congrArg Prod.snd heq]
      exact Value.toOwned_idem _
    rw [settleAll_known hsettled]
    simp only [joinState, hfirst, Option.any_some, Value.sameValue_owned hw hv, decide_eq_true_eq]

end

/-! ## Spans -/

/-- The time of a walk is the end of its span. -/
structure Walk.Spans (w : Walk) : Prop where
  time : w.Spanned
  order : ∀ span, w.span = some span → span.first ≤ span.last

/-- Acting on an item goes on with the span, and the tick of a record is in it. -/
theorem Walk.act_span {args : WalkArgs} {S : List Nat} (hsel : args.selected = some S)
    {offset : Nat}
    {w w' : Walk} {i : Item} {recs : List Record} (h : act args offset w i = .next w' recs)
    (hw : w.Spans) : w'.Spans ∧
      (∀ span, w.span = some span → ∃ last, w'.span = some ⟨span.first, last⟩ ∧ span.last ≤ last) ∧
      ∀ rec ∈ recs, ∃ span, w'.span = some span ∧ rec.time = span.last := by
  have hkeeps : ∀ span, w.span = some span → ∃ last, w.span = some ⟨span.first, last⟩ ∧
      span.last ≤ last :=
    fun span hspan => ⟨span.last, hspan, le_rfl⟩
  cases i with
  | stamp digits =>
    obtain ⟨n, -, -, hle, -, rfl, rfl⟩ := stamp_next h
    have htime := hw.time
    unfold Spanned at htime
    refine ⟨⟨rfl, fun span hspan => ?_⟩, fun span hspan => ⟨n, by rw [hspan]; rfl, ?_⟩,
      fun rec hrec => by cases hrec⟩
    · cases hspan
      cases hold : w.span with
      | none => exact le_rfl
      | some old =>
        rw [hold] at htime
        exact (hw.order old hold).trans (le_of_eq_of_le htime.symm hle)
    · rw [hspan] at htime
      exact le_of_eq_of_le htime.symm hle
  | command word =>
    simp only [act, command] at h
    split at h
    · cases h
      exact ⟨⟨hw.time, hw.order⟩, hkeeps, fun rec hrec => by cases hrec⟩
    split at h
    · cases h
      exact ⟨⟨hw.time, hw.order⟩, hkeeps, fun rec hrec => by cases hrec⟩
    · cases h
  | comment text =>
    cases h
    exact ⟨⟨hw.time, hw.order⟩, hkeeps, fun rec hrec => by cases hrec⟩
  | value letter payload id =>
    obtain ⟨index, ov, -, -, rfl⟩ := value_next h
    have hnote : w.note args index letter = w := by
      unfold note
      rw [hsel]
    rw [hnote]
    have htime : w.time = ((w.span.getD ⟨0, 0⟩ : TimeSpan)).last := by
      have hspanned := hw.time
      unfold Spanned at hspanned
      rw [hspanned]
      cases w.span <;> rfl
    refine ⟨⟨htime, fun span hspan => ?_⟩, fun span hspan => ⟨span.last, by simp [hspan], le_rfl⟩,
      fun rec hrec => ⟨_, rfl, ?_⟩⟩
    · cases hspan
      cases hold : w.span with
      | none => exact le_rfl
      | some old => exact hw.order old hold
    · rcases (act_next h).records with hnil | ⟨index', v, hone, -⟩
      · rw [hnil] at hrec
        cases hrec
      · rw [hone] at hrec
        rw [List.mem_singleton.1 hrec]
        exact htime

/-- A walk that ends well has the tick and the span it stopped with. -/
theorem stop_span {args : WalkArgs} {w fin : Walk} {out : List Emit}
    (h : walkStep args w = (out, .stop (.ok fin))) : fin.time = w.time ∧ fin.span = w.span := by
  obtain ⟨-, last, ⟨e, -, hr⟩ | ⟨tokens, -, hr⟩ | ⟨i, tokens, v, -, hact, hr⟩ |
    ⟨i, tokens, e, -, -, hr⟩⟩ := walkStep_stop h
  · cases hr
  · obtain ⟨-, rfl⟩ := Walk.finish_eq hr.symm
    exact ⟨rfl, rfl⟩
  · obtain ⟨-, rfl⟩ := Walk.finish_eq hr.symm
    obtain ⟨-, -, -, -, -, -, -, rfl⟩ := Walk.act_leave hact
    exact ⟨rfl, rfl⟩
  · cases hr

/-- The records of a walk that ends well are in its span. -/
theorem runs_span {args : WalkArgs} {S : List Nat} (hsel : args.selected = some S) {w fin : Walk}
    {out : List Emit} (h : Runs (walkStep args) w out (.ok fin)) (hw : w.Spans) :
    fin.Spans ∧ (∀ span, w.span = some span → ∃ last, fin.span = some ⟨span.first, last⟩ ∧
      span.last ≤ last) ∧
      ∀ rec ∈ records out, ∃ span, fin.span = some span ∧ span.first ≤ rec.time ∧
      rec.time ≤ span.last := by
  generalize hr : Except.ok (ε := Error) fin = result at h
  induction h with
  | @stop w out r hs =>
    subst hr
    obtain ⟨htime, hspan⟩ := stop_span hs
    have hfin : fin.Spans := by
      refine ⟨?_, hspan ▸ hw.order⟩
      have hspanned := hw.time
      unfold Walk.Spanned at hspanned ⊢
      rw [htime, hspan, hspanned]
    rw [(walkStep_stop hs).1, hspan]
    exact ⟨hfin, fun span hspan => ⟨span.last, hspan, le_rfl⟩, fun rec hrec => by cases hrec⟩
  | next hs _ ih =>
    obtain ⟨i, tokens, last, -, hact⟩ := walkStep_next hs
    obtain ⟨hw', hkeeps, hrecs⟩ := Walk.act_span hsel hact ⟨hw.time, hw.order⟩
    obtain ⟨hfin, hlater, hin⟩ := ih hw' hr
    refine ⟨hfin, fun span hspan => ?_, fun rec hrec => ?_⟩
    · obtain ⟨middle, hmiddle, hle⟩ := hkeeps span hspan
      obtain ⟨last', hlast', hle'⟩ := hlater _ hmiddle
      exact ⟨last', hlast', hle.trans hle'⟩
    · rw [records_append] at hrec
      rcases List.mem_append.1 hrec with hrec | hrec
      · obtain ⟨span, hspan, htime⟩ := hrecs rec hrec
        obtain ⟨last', hlast', hle'⟩ := hlater span hspan
        exact ⟨_, hlast', htime ▸ hw'.order span hspan, htime ▸ hle'⟩
      · exact hin rec hrec

/-! ## One chunk -/

/-- The values that are selected have a bounded width. -/
def Bounded (r : Reader) (signals : List Signal) : Prop :=
  ∀ s ∈ signals, (valueWidth (r.encodings.getD s.index .unsupported)).isSome = true

/-- A value of a bounded width is no event. -/
theorem decodeValue_bounded {parseReal : List UInt8 → Option UInt64} {tokens : Tokens} {time : Nat}
    {encoding : Encoding} {letter : UInt8} {payload : List UInt8} {v : Value}
    (h : decodeValue parseReal tokens time true encoding letter payload = .ok (some v))
    (hbounded : (valueWidth encoding).isSome = true) : v.isEvent = false := by
  cases encoding with
  | bits width =>
    simp only [decodeValue] at h
    split at h
    · cases h
    split at h
    · cases h
    · cases h
      rfl
  | real =>
    simp only [decodeValue] at h
    split at h
    · split at h
      · cases h
      · cases h
        rfl
    · cases h
  | string => cases hbounded
  | event => cases hbounded
  | unsupported => cases hbounded

section
variable {r : Reader} {signals : List Signal} {stop : Nat} {fault : Option (Nat × String)}

/-- What a worker that ends well has computed. -/
theorem chunkSamples_ok {range : Nat × Nat} {chunk : ChunkSamples}
    (h : r.chunkSamples fault signals stop range = .ok chunk) :
    ∃ recs fin, r.Ranged fault signals stop range recs (.ok fin) ∧
      chunk = ⟨fin.span, fun i =>
        (recs.foldl recordValue (fun _ => none) i).map ChunkValue.finishTick,
        fin.position.getD r.bodyStart⟩ := by
  obtain ⟨out, result, hrun⟩ := walk_total (r.queryArgs signals stop)
    (r.walk (tokensFrom (r.bytes.take range.2) ⟨none, fault⟩ range.1) false none)
  simp only [Reader.chunkSamples, walkInner_eq hrun, visit_onRecord, visit_continue] at h
  cases result with
  | error e => cases h
  | ok fin =>
    cases h
    exact ⟨records out, fin, ⟨out, rfl, hrun⟩, rfl⟩

/-- The records of a range are in its span. -/
theorem Reader.Ranged.spanned {range : Nat × Nat} {recs : List Record} {fin : Walk}
    (h : r.Ranged fault signals stop range recs (.ok fin)) : fin.Spans ∧ ∀ rec ∈ recs,
      ∃ span, fin.span = some span ∧ span.first ≤ rec.time ∧ rec.time ≤ span.last := by
  obtain ⟨out, rfl, hrun⟩ := h
  obtain ⟨hfin, -, hin⟩ := runs_span rfl hrun ⟨rfl, fun span hspan => by cases hspan⟩
  exact ⟨hfin, hin⟩

/-- The records of a range are of selected histories, and no events when these are bounded. -/
theorem Reader.Ranged.plain {range : Nat × Nat} {recs : List Record} {result : Except Error Walk}
    (h : r.Ranged fault signals stop range recs result) (hbounded : Bounded r signals) :
    ∀ rec ∈ recs, rec.index ∈ signals.map Signal.index ∧ rec.value.isEvent = false := by
  obtain ⟨out, rfl, hrun⟩ := h
  intro rec hrec
  obtain ⟨hmem, tokens, letter, payload, hdecode⟩ := records_decode rfl hrun rec hrec
  obtain ⟨s, hs, heq⟩ := List.mem_map.1 hmem
  exact ⟨hmem, decodeValue_bounded hdecode (heq ▸ hbounded s hs)⟩

/-- A history without a write in some records is left by them. -/
theorem settledState_quiet {done recs : List Record} {i : Nat}
    (hquiet : history (recs.map Record.plain) i = []) :
    settledState (done ++ recs) i = settledState done i := by
  rw [settledState, List.map_append, Query.history_append, hquiet, List.append_nil, settledState]

/-- The summaries of a range, joined, are the states after its records. -/
theorem joinValues_settled {done recs : List Record} {values : JoinedValues}
    (hvalues : ∀ i, values i = settledState done i)
    (hsorted : recs.Pairwise fun a b => a.time ≤ b.time)
    (hplain : ∀ rec ∈ recs, rec.index ∈ signals.map Signal.index ∧ rec.value.isEvent = false)
    (hlater : ∀ r ∈ done, ∀ r' ∈ recs, r.time < r'.time) :
    ∃ values',
    joinValues (fun i => (recs.foldl recordValue (fun _ => none) i).map ChunkValue.finishTick)
        (signals.map Signal.index).dedup values = some values' ∧
      ∀ i, values' i = settledState (done ++ recs) i := by
  have hsummaries := foldl_recordValue recs hsorted fun rec hrec => (hplain rec hrec).2
  have hfirst : ∀ i part, (recs.foldl recordValue (fun _ => none) i).map ChunkValue.finishTick =
      some part →
      part.first.isSome = true := by
    intro i part hpart
    obtain ⟨c, hc, rfl⟩ := Option.map_eq_some_iff.1 hpart
    rcases hsummaries i with ⟨hnone, -⟩ | ⟨c', hsome, htracks, -⟩
    · cases hc.symm.trans hnone
    · cases hc.symm.trans hsome
      obtain ⟨⟨v, hv, -⟩, -, -⟩ := htracks.finishTick
      rw [hv]
      rfl
  refine ⟨_, joinValues_eq hfirst (List.nodup_dedup _) values, fun i => ?_⟩
  rw [hvalues i]
  rcases hsummaries i with ⟨hnone, hquiet⟩ | ⟨c, hsome, htracks, e, he, -⟩
  · rw [settledState_quiet hquiet, hnone]
    exact ite_self _
  · have hmem : i ∈ (signals.map Signal.index).dedup := by
      obtain ⟨q, hq, hindex, -, -⟩ := Query.mem_history he
      obtain ⟨rec, hrec, rfl⟩ := List.mem_map.1 hq
      exact List.mem_dedup.2 (hindex ▸ (hplain rec hrec).1)
    rw [if_pos hmem, hsome]
    exact joinState_settled htracks.finishTick hlater

/-! ## All chunks -/

/-- What holds of the chunks joined so far: `done` are their records up to the end, and `rest` are
the records of the ranges to come. A position to resume from is one after which the others
remain. -/
structure Joins (r : Reader) (signals : List Signal) (stop : Nat) (whole done rest : List Record)
    (j : Joined) : Prop where
  values : ∀ i, j.values i = settledState done i
  previous : ∀ rec ∈ done, ∃ time, j.previous = some time ∧ rec.time ≤ time
  le : ∀ rec ∈ done, rec.time ≤ stop
  split : j.resume = none ∧ whole = done ++ rest ∨
    ∃ p later, j.resume = some p ∧ whole = done ++ later ∧ (∀ rec ∈ later, stop < rec.time) ∧
      p.time ≤ stop ∧ r.Remains signals p later ∧ ∀ rec ∈ rest, rec ∈ later

/-- A chunk joined, by where its worker stopped: at a timestamp past the end, or where its range
ends. -/
theorem Joins.chunk (hbounded : Bounded r signals) {whole done part rest : List Record}
    {j j' : Joined}
    {a b : Nat} (hj : Joins r signals stop whole done (part ++ rest) j) (hle : a ≤ b)
    (hseal : SealedAt r.bytes b) (hpart : (r.upTo b).Remains signals ⟨a, 0, false⟩ part)
    (hrest : r.Remains signals ⟨a, 0, false⟩ (part ++ rest)) {chunk : ChunkSamples}
    (hchunk : r.chunkSamples fault signals stop (a, b) = .ok chunk)
    (h : j.chunk (signals.map Signal.index).dedup b chunk = some j') :
    ∃ recs p, Joins r signals stop whole (done ++ recs) rest j' ∧ j'.lastPosition = some p ∧
      (j'.resume = none → p.offset = b ∧ p.block = false ∧ p.time ≤ stop) := by
  obtain ⟨recs, fin, hranged, rfl⟩ := chunkSamples_ok hchunk
  obtain ⟨htake, p, hp, hptime, hends⟩ := hranged.until hseal hle hpart
  obtain ⟨hfin, hspans⟩ := hranged.spanned
  have hsorted : recs.Pairwise fun a b => a.time ≤ b.time :=
    htake ▸ hpart.sorted.2.sublist (List.takeWhile_sublist _)
  have hrecs : ∀ rec ∈ recs, rec.time ≤ stop := by
    intro rec hrec
    rw [htake] at hrec
    exact of_decide_eq_true (List.mem_takeWhile_imp (p := fun rec : Record =>
      decide (rec.time ≤ stop)) hrec)
  simp only [Joined.chunk, hp, Option.getD_some] at h
  split at h
  · cases h
  next hjoins =>
  -- The ticks of the range are after those of the ranges before.
  have hlater : ∀ q ∈ done, ∀ q' ∈ recs, q.time < q'.time := by
    intro q hq q' hq'
    obtain ⟨time, hprevious, hqle⟩ := hj.previous q hq
    obtain ⟨span, hspan, hfirst, -⟩ := hspans q' hq'
    rw [hspan, hprevious, Option.any_some, Option.any_some, decide_eq_true_eq, Nat.not_le] at hjoins
    omega
  obtain ⟨values', hjoined, hvalues⟩ :=
    joinValues_settled hj.values hsorted (hranged.plain hbounded) hlater
  rw [hjoined] at h
  dsimp only at h
  cases h
  refine ⟨recs, p, ⟨hvalues, fun rec hrec => ?_, fun rec hrec => ?_, ?_⟩, rfl, ?_⟩
  · rcases List.mem_append.1 hrec with hrec | hrec
    · obtain ⟨time, hprevious, hqle⟩ := hj.previous rec hrec
      cases hspan : fin.span with
      | none => exact ⟨time, hprevious, hqle⟩
      | some span =>
        rw [hspan, hprevious, Option.any_some, Option.any_some, decide_eq_true_eq,
          Nat.not_le] at hjoins
        exact ⟨span.last, rfl, hqle.trans (hjoins.le.trans (hfin.order span hspan))⟩
    · obtain ⟨span, hspan, -, hlast⟩ := hspans rec hrec
      exact ⟨span.last, by rw [hspan]; rfl, hlast⟩
  · exact (List.mem_append.1 hrec).elim (hj.le rec) (hrecs rec)
  · rcases hj.split with ⟨hnone, hwhole⟩ | ⟨q, later, hsome, hwhole, hpast, hq, hremains, hsub⟩
    · rcases hends with ⟨hlt, fin', hdelivers, hp'⟩ | ⟨hoff, hall, -⟩
      · obtain ⟨v, q, hdelivers', hq, -, hremains⟩ := hrest.until (Nat.zero_le stop)
        obtain ⟨heq, hfin'⟩ := hdelivers.unique hdelivers'
        cases hfin'
        obtain rfl : q = p := Option.some.inj (hq.symm.trans hp')
        have hcut : recs ++ ((part ++ rest).dropWhile fun rec => rec.time ≤ stop) =
            part ++ rest := by
          rw [heq, List.takeWhile_append_dropWhile]
        refine .inr ⟨q,
          _, by simp [hnone, hlt], ?_, Reader.lt_of_mem_dropWhile hrest.sorted.2, hptime,
          hremains, fun rec hrec => ?_⟩
        · rw [hwhole, List.append_assoc, hcut]
        · have hpart' : recs ++ (part.dropWhile fun rec => rec.time ≤ stop) = part := by
            rw [htake, List.takeWhile_append_dropWhile]
          have hsuffix : ((part ++ rest).dropWhile fun rec => rec.time ≤ stop) =
              (part.dropWhile fun rec => rec.time ≤ stop) ++ rest := by
            have hall : recs ++ ((part ++ rest).dropWhile fun rec => rec.time ≤ stop) =
                recs ++ ((part.dropWhile fun rec => rec.time ≤ stop) ++ rest) := by
              rw [hcut, ← List.append_assoc, hpart']
            exact List.append_cancel_left hall
          exact hsuffix ▸ List.mem_append_right _ hrec
      · exact .inl ⟨by simp [hnone, hoff], by rw [hwhole, hall, List.append_assoc]⟩
    · have hnil : recs = [] := by
        refine List.eq_nil_iff_forall_not_mem.2 fun rec hrec => ?_
        have hmem : rec ∈ part := (List.takeWhile_sublist _).subset (htake ▸ hrec)
        exact (hpast rec (hsub rec (List.mem_append_left _ hmem))).not_ge (hrecs rec hrec)
      refine .inr ⟨q, later, by simp [hsome], ?_, hpast, hq, hremains, fun rec hrec =>
        hsub rec (List.mem_append_right _ hrec)⟩
      rw [hnil, List.append_nil, hwhole]
  · intro hnone
    rcases hends with ⟨hlt, -⟩ | ⟨hoff, -, hblock⟩
    · cases hold : j.resume with
      | none => simp [hold, hlt] at hnone
      | some q => simp [hold] at hnone
    · exact ⟨hoff, hblock, hptime⟩

/-- At the end of the file nothing remains. -/
theorem remains_finished (time : Nat) : r.Remains signals ⟨r.bytes.length, time, false⟩ [] := by
  have hbefore : Before r.bytes r.bytes.length (r.startAt ⟨r.bytes.length, time, false⟩).tokens :=
    ⟨[], rfl, (fun x hx => by cases hx), rfl, rfl⟩
  exact (Reader.Stands.start r ⟨r.bytes.length, time, false⟩).ended (hbefore.finished false) rfl

/-- **All chunks joined**, by induction on the ranges. -/
theorem joinLoop_joins (hbounded : Bounded r signals) {whole : List Record} {cuts : List Nat}
    {parts : List (List Record)} (hparts : r.Parted signals cuts parts) :
    ∀ (faults : Nat → Option (Nat × String)) (done : List Record) (j j' : Joined),
      Joins r signals stop whole done parts.flatten j →
      joinLoop (signals.map Signal.index).dedup j
        (((windows cuts).mapIdx fun index range =>
          r.chunkSamples (faults index) signals stop range).zip
          cuts.tail) = some j' →
      ∃ done' p, Joins r signals stop whole done' [] j' ∧ j'.lastPosition = some p ∧
        (j'.resume = none → r.Remains signals p [] ∧ p.time ≤ stop) := by
  induction hparts with
  | @last a part hle hpart =>
    intro faults done j j' hj h
    have hseal : SealedAt r.bytes r.bytes.length := .inl rfl
    rw [List.flatten_singleton, ← List.append_nil part] at hj
    simp only [windows_pair, List.mapIdx_cons, List.mapIdx_nil, List.tail_cons, List.zip_cons_cons,
      List.zip_nil_left] at h
    cases hchunk : r.chunkSamples (faults 0) signals stop (a, r.bytes.length) with
    | error e =>
      rw [hchunk] at h
      cases h
    | ok chunk =>
      rw [hchunk, joinLoop] at h
      split at h
      · cases h
      next j₁ hjoined =>
      cases h
      obtain ⟨recs, p, hjoins, hlast, hresume⟩ := hj.chunk hbounded hle hseal
        (by rw [Reader.upTo_length]; exact hpart) (by rw [List.append_nil]; exact hpart)
        hchunk hjoined
      refine ⟨done ++ recs, p, hjoins, hlast, fun hnone => ?_⟩
      obtain ⟨offset, time, block⟩ := p
      obtain ⟨hoff, hblock, htime⟩ := hresume hnone
      dsimp only at hoff hblock
      subst hoff hblock
      exact ⟨remains_finished time, htime⟩
  | @cut a b cuts part parts hle hseal hpart hwhole hrest ih =>
    intro faults done j j' hj h
    simp only [windows_cons, List.mapIdx_cons, List.tail_cons, List.zip_cons_cons] at h
    cases hchunk : r.chunkSamples (faults 0) signals stop (a, b) with
    | error e =>
      rw [hchunk] at h
      cases h
    | ok chunk =>
      rw [hchunk, joinLoop] at h
      split at h
      · cases h
      next j₁ hjoined =>
      obtain ⟨recs, -, hjoins, -, -⟩ := hj.chunk hbounded hle hseal hpart hwhole hchunk hjoined
      exact ih (fun index => faults (index + 1)) _ j₁ j' hjoins h

/-! ## The prefix -/

/-- What the budget lets pass: whole handles, each of a history of bits or reals. -/
theorem prefixBytes_some {size : Nat} :
    ∀ {signals : List Signal} {selected : List Nat} {bytes n : Nat},
    prefixBytes size selected bytes signals = some n → ∀ s ∈ signals, s.isSlice = false ∧
      (s.index ∈ selected ∨
        ∃ s' ∈ signals, s'.index = s.index ∧ (valueWidth s'.encoding).isSome = true) := by
  intro signals
  induction signals with
  | nil => exact fun _ s hs => by cases hs
  | cons signal signals ih =>
    intro selected bytes n h s hs
    rw [prefixBytes] at h
    split at h
    · cases h
    next hwhole =>
    split at h
    · next hmem =>
      rcases List.mem_cons.1 hs with rfl | hs
      · exact ⟨by simpa using hwhole, .inl hmem⟩
      · obtain ⟨hslice, hkind⟩ := ih h s hs
        exact ⟨hslice, hkind.imp_right fun ⟨s', hs', heq⟩ => ⟨s', .tail _ hs', heq⟩⟩
    split at h
    · cases h
    next width hwidth =>
    split at h
    · cases h
    have hsome : (valueWidth signal.encoding).isSome = true := by
      rw [hwidth]
      rfl
    rcases List.mem_cons.1 hs with rfl | hs
    · exact ⟨by simpa using hwhole, .inr ⟨s, .head _, rfl, hsome⟩⟩
    · obtain ⟨hslice, hkind⟩ := ih h s hs
      refine ⟨hslice, ?_⟩
      rcases hkind with hmem | ⟨s', hs', heq⟩
      · rcases List.mem_cons.1 hmem with heq | hmem
        · exact .inr ⟨signal, .head _, heq.symm, hsome⟩
        · exact .inl hmem
      · exact .inr ⟨s', .tail _ hs', heq⟩

/-- The histories that the budget lets pass have bounded values. -/
theorem prefixBytes_bounded {w : Waveform} (hw : w.encodings = r.encodings)
    (hsignals : ∀ s ∈ signals, w.Valid s ∧ s.computed = false) {size n : Nat}
    (h : prefixBytes size [] 0 signals = some n) : Bounded r signals := by
  intro s hs
  obtain ⟨-, hnot | ⟨s', hs', hindex, hsome⟩⟩ := prefixBytes_some h s hs
  · cases hnot
  obtain ⟨hvalid, hc⟩ := hsignals s' hs'
  have hbase := hvalid.encoding hc
  rw [hw, hindex] at hbase
  rw [List.getD_eq_getElem?_getD, hbase, Option.getD_some]
  rcases Query.inBase_cases (Query.validateEncoding_ok hvalid).2.2.2 with
    ⟨base, width, hbits, -⟩ | ⟨hsame, -⟩
  · rw [hbits]
    rfl
  · exact hsame ▸ hsome

/-- The reference of a whole handle of a history. -/
theorem committedAt_settled {w : Waveform} {s : Signal} (hc : s.computed = false)
    (hslice : s.isSlice = false) {recs : List Record}
    (hsorted : recs.Pairwise fun a b => a.time ≤ b.time) (hle : ∀ rec ∈ recs, rec.time ≤ stop) :
    w.committedAt (recs.map Record.plain) s stop = settledState recs s.index := by
  have hvalue : ∀ source : Nat → Option Value, w.value source s = source s.index := by
    intro source
    rw [Waveform.value_source hc]
    cases source s.index with
    | none => rfl
    | some v => exact congrArg some (Waveform.project_whole hslice)
  have hplain : Query.Chronological (recs.map Record.plain) := List.pairwise_map.2 hsorted
  have hat : w.valueAt (recs.map Record.plain) s =
      (history (recs.map Record.plain) s.index).valueAt :=
    funext fun t => hvalue _
  have hentering : w.enteringAt (recs.map Record.plain) s =
      (history (recs.map Record.plain) s.index).entering := funext fun t => hvalue _
  rw [Waveform.committedAt, hat, hentering]
  refine History.committed_finals (Query.history_sorted hplain _) (fun e he => ?_)
    (Query.recorded_sorted hplain) fun e he => ?_
  · obtain ⟨q, hq, -, -, rfl⟩ := Query.mem_history he
    obtain ⟨rec, hrec, rfl⟩ := List.mem_map.1 hq
    exact hle rec hrec
  · obtain ⟨q, hq, -, -, rfl⟩ := Query.mem_history he
    exact List.mem_map_of_mem hq

end

/-- What a prefix that is computed holds: its samples are the reference of the records up to the
end, and the records after it remain after its position. -/
theorem parallelPrefix_remains {r : Reader} {cuts : List Nat} {o : Opened}
    (hhead : cuts.head? = some r.body) (hcut : Cutting r.bytes cuts)
    (hopen : r.parallelOpenWithCuts cuts = some o) {lastTime : Nat} {w : Waveform}
    (hw : w.encodings = o.encodings) {signals : List Signal}
    (hsignals : ∀ s ∈ signals, w.Valid s ∧ s.computed = false) {env : PrefixEnv} {stop : Nat}
    {samples : List Sample} {p : Position}
    (hanswer : (r.chunked o ⟨cuts, lastTime⟩).parallelPrefix env signals stop = some (samples, p)) :
    let opened := r.chunked o ⟨cuts, lastTime⟩
    ∃ recs later, opened.Remains signals opened.bodyStart (recs ++ later) ∧
      (∀ rec ∈ recs, rec.time ≤ stop) ∧ (∀ rec ∈ later, stop < rec.time) ∧
      samples = signals.map (w.sampleAt (recs.map Record.plain) stop) ∧
      p.time ≤ stop ∧ opened.Remains signals p later := by
  intro opened
  unfold Reader.parallelPrefix at hanswer
  split at hanswer
  · cases hanswer
  next source hsource =>
  obtain rfl : ⟨cuts, lastTime⟩ = source := Option.some.inj hsource
  split at hanswer
  · cases hanswer
  split at hanswer
  · cases hanswer
  next total hbudget =>
  split at hanswer
  · cases hanswer
  split at hanswer
  swap
  · cases hanswer
  dsimp only at hanswer
  split at hanswer
  · cases hanswer
  next joined hloop =>
  split at hanswer
  · cases hanswer
  next position hposition =>
  cases hanswer
  obtain ⟨bytes, hbytes, -⟩ := Option.bind_eq_some_iff.1 hbudget
  have hbounded : Bounded opened signals := prefixBytes_bounded hw hsignals hbytes
  obtain ⟨parts, hparts⟩ := chunked_parted hcut hhead hopen ⟨cuts, lastTime⟩ signals
  have hwhole := hparts.remains hhead
  have hstart : Joins opened signals stop parts.flatten [] parts.flatten
      ⟨none, none, none, fun _ => none⟩ :=
    ⟨fun _ => rfl, (fun rec hrec => by cases hrec), (fun rec hrec => by cases hrec),
      .inl ⟨rfl, rfl⟩⟩
  obtain ⟨done, q, hjoins, hlast, hend⟩ :=
    joinLoop_joins hbounded hparts env.faults [] _ joined hstart hloop
  obtain ⟨later, hsplit, hpast, htime, hremains⟩ : ∃ later, parts.flatten = done ++ later ∧
      (∀ rec ∈ later, stop < rec.time) ∧ p.time ≤ stop ∧ opened.Remains signals p later := by
    rcases hjoins.split with ⟨hnone, hall⟩ | ⟨q', later, hsome, hall, hpast, htime, hremains, -⟩
    · rw [hnone, hlast, Option.none_or, Option.some.injEq] at hposition
      subst hposition
      obtain ⟨hremains, htime⟩ := hend hnone
      exact ⟨[], hall, (fun rec hrec => by cases hrec), htime, hremains⟩
    · rw [hsome, Option.some_or, Option.some.injEq] at hposition
      subst hposition
      exact ⟨later, hall, hpast, htime, hremains⟩
  rw [hsplit] at hwhole
  have hsorted := (List.pairwise_append.1 hwhole.sorted.2).1
  refine ⟨done, later, hwhole, hjoins.le, hpast, List.map_congr_left fun s hs => ?_,
    htime, hremains⟩
  obtain ⟨hvalid, hc⟩ := hsignals s hs
  have hslice := (prefixBytes_some hbytes s hs).1
  have hevent : s.encoding ≠ .event := by
    rw [Ne, hvalid.event]
    intro hbase
    have hsome := hbounded s hs
    have hencoding := hvalid.encoding hc
    rw [hw, hbase] at hencoding
    rw [List.getD_eq_getElem?_getD, show opened.encodings[s.index]? = _ from hencoding] at hsome
    cases hsome
  have hcommitted := committedAt_settled (w := w) hc hslice hsorted hjoins.le
  rw [Joined.sample, hjoins.values, Waveform.sampleAt, if_neg hevent]
  cases hstate : settledState done s.index <;> rw [hstate] at hcommitted <;> simp only [hcommitted]

/-- **The parallel prefix is the serial state.** For a body that opened with chunk cuts, and the
whole bit and real handles and the end for which a prefix is computed: the samples are the reference
of the serial records up to the end, and a serial read from the position that is kept delivers the
records after it. -/
theorem parallelPrefix_serial (r : Reader) {cuts : List Nat} {o : Opened}
    (hhead : cuts.head? = some r.body) (hcut : Cutting r.bytes cuts)
    (hopen : r.parallelOpenWithCuts cuts = some o) (lastTime : Nat) {w : Waveform}
    (hw : w.encodings = o.encodings) {signals : List Signal}
    (hsignals : ∀ s ∈ signals, w.Valid s ∧ s.computed = false) (env : PrefixEnv) {stop : Nat}
    {samples : List Sample} {p : Position}
    (hanswer : (r.chunked o ⟨cuts, lastTime⟩).parallelPrefix env signals stop = some (samples, p)) :
    let opened := r.chunked o ⟨cuts, lastTime⟩
    ∃ recs later left, opened.Reads signals u64Max (some opened.bodyStart) (recs ++ later) left ∧
      (∀ rec ∈ recs, rec.time ≤ stop) ∧ (∀ rec ∈ later, stop < rec.time) ∧
      samples = signals.map (w.sampleAt (recs.map Record.plain) stop) ∧
      ∀ e, stop ≤ e → ∃ left,
        opened.Reads signals e (some p) (later.takeWhile fun rec => rec.time ≤ e) left := by
  intro opened
  obtain ⟨recs, later, hwhole, hle, hpast, hsamples, htime, hremains⟩ :=
    parallelPrefix_remains hhead hcut hopen hw hsignals hanswer
  obtain ⟨left, hreads, -, -⟩ :=
    @Reader.Remains.reads opened signals (some opened.bodyStart) _ hwhole u64Max (Nat.zero_le _)
  rw [hwhole.whole (Nat.zero_le _)] at hreads
  refine ⟨recs, later, left, hreads, hle, hpast, hsamples, fun e he => ?_⟩
  obtain ⟨left', hreads', -, -⟩ :=
    @Reader.Remains.reads opened signals (some p) _ hremains e (htime.trans he)
  exact ⟨left', hreads'⟩

/-- A body cut before its third tick: a prefix up to that tick shows a change over the cut. -/
theorem parallelPrefix_serial_two :
    let h : Header := ⟨0, [(ascii "!", 0)], [], [.bits 1]⟩
    let bit : Signal := ⟨0, 0, false, .bits 1, .bits 1, 0⟩
    let w : Waveform := ⟨0, [.bits 1], [], some ⟨1, 9⟩, fun i d h => by cases h⟩
    let opened := (h.reader (fun _ => none) (ascii "#1\n0!\n#2\n1!\n#4\n0!\n#9\n1!\n")).chunked
      ⟨some ⟨1, 9⟩, [], [.bits 1]⟩ ⟨[0, 12, 24], 9⟩
    ∃ recs later left, opened.Reads [bit] u64Max (some opened.bodyStart) (recs ++ later) left ∧
      (∀ rec ∈ recs, rec.time ≤ 4) ∧ (∀ rec ∈ later, 4 < rec.time) ∧
      [Sample.value bit (.bits [48]) (some 4)] =
        [bit].map (w.sampleAt (recs.map Record.plain) 4) ∧
      ∀ e, 4 ≤ e → ∃ left,
        opened.Reads [bit] e (some ⟨17, 4, false⟩) (later.takeWhile fun rec => rec.time ≤
        e) left := by
  have hcut : Cutting (ascii "#1\n0!\n#2\n1!\n#4\n0!\n#9\n1!\n") [0, 12, 24] :=
    .cut (by decide) (by decide) (by decide) (.last (by decide))
  exact parallelPrefix_serial (Header.reader ⟨0, [(ascii "!", 0)], [], [.bits 1]⟩ (fun _ => none)
    (ascii "#1\n0!\n#2\n1!\n#4\n0!\n#9\n1!\n")) (o := ⟨some ⟨1, 9⟩, [], [.bits 1]⟩) rfl hcut
    (by decide +kernel) 9 (w := ⟨0, [.bits 1], [], some ⟨1, 9⟩, fun i d h => by cases h⟩) rfl
    (fun s hs => by cases List.mem_singleton.1 hs; exact ⟨rfl, rfl⟩)
    ⟨120, true, fun _ => none⟩ (by decide +kernel)

end Ondas.Vcd
