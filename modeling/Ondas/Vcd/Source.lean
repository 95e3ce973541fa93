import Mathlib.Algebra.Order.BigOperators.Group.List
import Mathlib.Algebra.Order.Group.Nat
import Ondas.Query.Alike
import Ondas.Vcd.Full

/-!
# The VCD reader under a selection

A selection reads an opened VCD body through `Reader.source`: serially from a position, in parallel
from the body start when its threads can be started (`Schedule.full`), and from a parallel prefix
when nothing is cached. The operating system decides which threads start and which of them takes the
next step, anew for each operation.

Whatever it decides, the reader serves the records that the body holds (`Opens.serves`), so an
operation on a selection with any snapshots answers as one on a fresh selection (`opened_alike`).
-/

namespace Ondas.Query

/-! ## Handles that can be read -/

section
variable {w : Waveform}

/-- The source handles of a plan are not unsupported. -/
def Planning.Supported (p : Planning) : Prop :=
  ∀ signal ∈ p.plan.retained, signal.computed = false → signal.encoding ≠ .unsupported

/-- Planning admits no unsupported source handle. By induction on its turns; what waits on the stack
for its operands is computed. -/
theorem expand_supported {n : Nat} {p p' : Planning} {stack : List (Signal × Bool)}
    (hp : p.Supported) (hstack : ∀ entry ∈ stack, entry.2 = true → entry.1.computed = true)
    (h : expand w n p stack = .ok p') : p'.Supported := by
  induction n generalizing p stack with
  | zero => cases h; exact hp
  | succ n ih =>
    cases stack with
    | nil => cases h; exact hp
    | cons entry pending =>
      obtain ⟨signal, expanded⟩ := entry
      have hpending : ∀ entry ∈ pending, entry.2 = true → entry.1.computed = true :=
        fun entry hentry => hstack entry (List.mem_cons_of_mem _ hentry)
      unfold expand expandStep at h
      by_cases hknown : (p.known signal).isSome = true
      · rw [if_pos hknown] at h
        exact ih hp hpending h
      · rw [if_neg hknown] at h
        cases hchecked : (if expanded = true then Except.ok () else w.admit signal) with
        | error e => rw [hchecked] at h; cases h
        | ok u =>
          rw [hchecked] at h
          dsimp only at h
          by_cases hwaits : (signal.computed && !expanded) = true
          · rw [if_pos hwaits] at h
            simp only [Bool.and_eq_true, Bool.not_eq_true'] at hwaits
            refine ih hp (fun entry hentry hexpanded => ?_) h
            rcases List.mem_append.1 hentry with hentry | hentry
            · obtain ⟨part, -, rfl⟩ := List.mem_map.1 hentry
              cases hexpanded
            · rcases List.mem_cons.1 hentry with rfl | hentry
              · exact hwaits.1
              · exact hpending entry hentry hexpanded
          · rw [if_neg hwaits] at h
            refine ih (fun s hs hsource => ?_) hpending h
            have hretained : (p.retain w signal).plan.retained = p.plan.retained ++ [signal] := by
              unfold Planning.retain
              dsimp only
              split <;> rfl
            rw [hretained] at hs
            rcases List.mem_append.1 hs with hs | hs
            · exact hp s hs hsource
            · obtain rfl := List.mem_singleton.1 hs
              cases expanded with
              | true =>
                rw [hstack _ (.head _) rfl] at hsource
                cases hsource
              | false => exact (Waveform.admit_ok.1 hchecked).2

/-- The histories a selection reads are not unsupported. -/
theorem Plan.new_supported {signals : List Signal} {plan : Plan}
    (h : Plan.new w signals = .ok plan) :
    ∀ base ∈ plan.bases, base.encoding ≠ .unsupported := by
  have hall : ∀ (signals : List Signal) (p p' : Planning), p.Supported →
      planAll w p signals = .ok p' → p'.Supported := by
    intro signals
    induction signals with
    | nil =>
      intro p p' hp hrun
      cases hrun
      exact hp
    | cons signal signals ih =>
      intro p p' hp hrun
      unfold planAll at hrun
      split at hrun
      · cases hrun
      next q hq =>
        have hsupported : q.Supported := expand_supported hp
          (fun entry hentry hexpanded => by
            rw [List.mem_singleton.1 hentry] at hexpanded
            cases hexpanded) hq
        exact ih (q.enter signal) p' hsupported hrun
  intro base hbase
  have hfits := (Plan.new_plans h).toFits
  obtain ⟨signal, hsignal, hsource, rfl⟩ := hfits.sources base hbase
  unfold Plan.new at h
  split at h
  · cases h
  next p hp =>
  cases h
  have hsupported := hall signals .empty p (fun s hs => by cases hs) hp signal hsignal hsource
  intro hunsupported
  have hbaseEncoding : signal.baseEncoding = .unsupported := hunsupported
  rcases inBase_cases (validateEncoding_ok (hfits.valid signal hsignal)).2.2.2 with
    ⟨base, width, hbits, -⟩ | ⟨hsame, -⟩
  · rw [hbits] at hbaseEncoding
    cases hbaseEncoding
  · exact hsupported (hsame.trans hbaseEncoding)

end

end Ondas.Query

namespace Ondas.Vcd

open Library

/-! ## The reader of a selection -/

/-- What `parallel_full` returns: nothing when its threads do not start, and else what they leave
when they are joined, whichever of them took each step. -/
def Reader.FullEnds {σ B : Type} (r : Reader) (env : FullEnv) (signals : List Signal) (stop : Nat)
    (visitor : σ → Record → σ × ControlFlow B) (c : σ)
    (result : Option (Reader × σ × Except Error (ControlFlow B))) : Prop :=
  match r.parallelFull (B := B) env signals stop c with
  | none => result = none
  | some (batchLen, started) => ∃ s,
      Relation.ReflTransGen (r.FullStep signals batchLen visitor) started s ∧
      s.Joined (fullCrew (r.fullArgs signals) batchLen) ∧
      result = r.parallel.bind fun source => r.fullEnded source s

/-- What the operating system does while an operation reads the body of a file whose reads do not
fail: which threads it starts, and the order of their steps, which `full` shows only in what they
return. -/
structure Schedule (r : Reader) where
  chunkEnv : PrefixEnv
  fullEnv : FullEnv
  full : ∀ {σ B : Type}, List Signal → Nat → (σ → Record → σ × ControlFlow B) → σ →
    Option (Reader × σ × Except Error (ControlFlow B))
  reads : ∀ index, fullEnv.faults index = none
  ends : ∀ {σ B : Type} (signals : List Signal) (stop : Nat)
    (visitor : σ → Record → σ × ControlFlow B) (c : σ),
    r.FullEnds fullEnv signals stop visitor c (full signals stop visitor c)

/-- The callback of a selection as the visitor of a read. -/
def onDelivery {σ B : Type} (callback : σ → Query.Delivery → σ × ControlFlow B) (c : σ)
    (rec : Record) :
    σ × ControlFlow B :=
  callback c (.record rec.index (.ok rec.value) rec.time (some rec.position))

/-- The reader as a selection uses it. What position it kept before does not matter, and it keeps
none when the callback breaks. -/
def Reader.source (r : Reader) (schedule : Schedule r) : Query.Source where
  backend := "vcd-native"
  read := fun bases stop origin callback c =>
    match r.readFrom .none (fun _ => schedule.full bases stop (onDelivery callback) c) bases
      stop origin
      (onDelivery callback) c with
    | (after, c, outcome) => (c, outcome, after.position)
  parallelPrefix := r.parallelPrefix schedule.chunkEnv

/-- Some order of steps joins the threads of a whole read. -/
theorem Reader.fullEnds_total {σ B : Type} (r : Reader) (env : FullEnv) (signals : List Signal)
    (stop : Nat) (visitor : σ → Record → σ × ControlFlow B) (c : σ) :
    ∃ result, r.FullEnds env signals stop visitor c result := by
  unfold Reader.FullEnds
  split
  · exact ⟨none, rfl⟩
  · next batchLen started hstart =>
    have hqueued : 0 < queuedBatches := by decide
    obtain ⟨s, hsteps, hjoined⟩ := Pipe.joins (fun c (full : FullRecord) => visitor c full.shown)
      (fullCrew_lawful (r.fullArgs signals) batchLen) hqueued started
    exact ⟨_, s, hsteps, hjoined, rfl⟩

/-- The operating system can do something, whatever it answers to the threads that start. -/
theorem Schedule.total (r : Reader) (chunkEnv : PrefixEnv) {fullEnv : FullEnv}
    (hreads : ∀ index, fullEnv.faults index = none) :
    ∃ schedule : Schedule r, schedule.chunkEnv = chunkEnv ∧ schedule.fullEnv = fullEnv :=
  ⟨{ chunkEnv := chunkEnv
     fullEnv := fullEnv
     full := fun signals stop visitor c =>
       Classical.choose (r.fullEnds_total fullEnv signals stop visitor c)
     reads := hreads
     ends := fun signals stop visitor c =>
       Classical.choose_spec (r.fullEnds_total fullEnv signals stop visitor c) }, rfl, rfl⟩

/-! ## Opened bodies -/

/-- The readers that opening a body leaves: the body was walked serially, or in chunks. -/
inductive Reader.Opens (r : Reader) (o : Opened) : Reader → Prop
  | serial : r.openSerial = .ok o → r.parallel = none → Opens r o (r.opened o)
  | chunks {cuts : List Nat} : cuts.head? = some r.body → Cutting r.bytes cuts →
      r.parallelOpenWithCuts cuts = some o →
      Opens r o (r.chunked o ⟨cuts, (o.span.map TimeSpan.last).getD 0⟩)

/-- Opening a body leaves such a reader. -/
theorem Reader.openBody_opens {r opened : Reader} {o : Opened} {file : Option OpenEnv}
    (hserial : r.parallel = none) (h : r.openBody file = .ok (opened, o)) : r.Opens o opened := by
  unfold Reader.openBody at h
  cases hparallel : file.bind r.parallelOpen with
  | none =>
    rw [hparallel] at h
    dsimp only at h
    split at h
    · cases h
    next o' hopen =>
    cases h
    exact .serial hopen hserial
  | some result =>
    obtain ⟨o', source⟩ := result
    rw [hparallel] at h
    cases h
    obtain ⟨env, -, henv⟩ := Option.bind_eq_some_iff.1 hparallel
    unfold Reader.parallelOpen at henv
    split at henv
    · cases henv
    next hle =>
    split at henv
    · cases henv
    dsimp only at henv
    split at henv
    · cases henv
    split at henv
    · cases henv
    next cuts hloop =>
    split at henv
    · split at henv
      · cases henv
      next o' hopen =>
      cases henv
      exact .chunks rfl (Reader.cutLoop_cutting (by omega) hloop) hopen
    · cases henv

section
variable {r opened : Reader} {o : Opened}

/-- An opened body has the encodings and the bytes that opening found. -/
theorem Reader.Opens.encodings (h : r.Opens o opened) : opened.encodings = o.encodings := by
  cases h <;> rfl

theorem Reader.Opens.bytes (h : r.Opens o opened) : opened.bytes = r.bytes := by
  cases h <;> rfl

/-- An opened body holds some records after its start, none of them past the end of its span. -/
theorem Reader.Opens.remains (h : r.Opens o opened) (signals : List Signal) :
    ∃ recs, opened.Remains signals opened.bodyStart recs ∧
      ∀ rec ∈ recs, rec.time ≤ (o.span.map TimeSpan.last).getD 0 := by
  cases h with
  | serial hopen _ =>
    obtain ⟨recs, hremains⟩ := Reader.remains_of_accepted signals (Accepted.bodyStart hopen)
    exact ⟨recs, hremains, opened_times hopen hremains⟩
  | chunks hhead hcut hopen =>
    obtain ⟨parts, -, hremains, htimes⟩ := chunked_remains hhead hcut hopen signals
    exact ⟨parts.flatten, hremains, htimes⟩

end

/-! ## The stream of a body -/

/-- A record as the slots keep it. -/
def Record.kept (rec : Record) : Query.Record := rec.plain.owned

/-- A record as a selection is handed it. -/
def Record.delivery (rec : Record) : Query.Delivery :=
  .record rec.index (.ok rec.value.toOwned) rec.time (some rec.position)

/-- A decoded value is of the kind of its history, and an event happens once. -/
theorem decodeValue_fits {parseReal : List UInt8 → Option UInt64} {tokens : Tokens} {time : Nat}
    {encoding : Encoding} {letter : UInt8} {payload : List UInt8} {v : Value}
    (h : decodeValue parseReal tokens time true encoding letter payload = .ok (some v)) :
    (encoding ≠ .unsupported → Query.Fits encoding v) ∧ ∀ n, v = .event n → n = 1 := by
  cases encoding with
  | bits width =>
    simp only [decodeValue] at h
    split at h
    · cases h
    split at h
    · cases h
    · cases h
      exact ⟨fun _ => trivial, fun n hn => by cases hn⟩
  | real =>
    simp only [decodeValue] at h
    split at h
    · split at h
      · cases h
      · cases h
        exact ⟨fun _ => trivial, fun n hn => by cases hn⟩
    · cases h
  | string =>
    simp only [decodeValue] at h
    split at h
    · split at h
      · cases h
      · cases h
        exact ⟨fun _ => trivial, fun n hn => by cases hn⟩
    · cases h
  | event =>
    simp only [decodeValue] at h
    split at h
    · cases h
    split at h
    · cases h
    · cases h
      exact ⟨fun _ => trivial, fun n hn => by cases hn; rfl⟩
  | unsupported =>
    simp only [decodeValue] at h
    split at h
    · cases h
    split at h
    · cases h
    · cases h
      exact ⟨fun hne => absurd rfl hne, fun n hn => by cases hn; rfl⟩

section
variable {r : Reader} {signals : List Signal} {p : Position} {recs : List Record}

/-- The position of a record is at its tick. -/
theorem Reader.Remains.position_time (h : r.Remains signals p recs) :
    ∀ rec ∈ recs, rec.position.time = rec.time := by
  obtain ⟨w, out, rfl, hrun⟩ := h
  have hall : ∀ {args : WalkArgs} {v : Walk} {out : List Emit} {result : Except Error Walk},
      Runs (walkStep args) v out result → ∀ rec ∈ records out, rec.position.time = rec.time := by
    intro args v out result hrun
    induction hrun with
    | stop hs =>
      rw [stop_records hs]
      exact fun rec hrec => by cases hrec
    | next hs _ ih =>
      intro rec hrec
      rw [records_append] at hrec
      rcases List.mem_append.1 hrec with hrec | hrec
      · rcases (step_records hs).2 with hnil | ⟨first, hone, htime, hposition, -⟩
        · rw [hnil] at hrec
          cases hrec
        · rw [hone] at hrec
          obtain rfl := List.mem_singleton.1 hrec
          rw [hposition, htime]
          rfl
      · exact ih rec hrec
  exact hall hrun

/-- A record takes at least a byte of the body. -/
theorem Reader.Remains.length_le (h : r.Remains signals p recs) : recs.length ≤ r.bytes.length := by
  obtain ⟨w, out, rfl, hrun⟩ := h
  have hrest : ∀ {args : WalkArgs} {v : Walk} {out : List Emit} {result : Except Error Walk},
      Runs (walkStep args) v out result → (records out).length ≤ v.tokens.input.length := by
    intro args v out result hrun
    induction hrun with
    | stop hs => rw [stop_records hs]; exact Nat.zero_le _
    | next hs _ ih =>
      have hless := walkStep_decreases _ _ _ _ hs
      rw [records_append, List.length_append]
      rcases (step_records hs).2 with hnil | ⟨first, hone, -⟩
      · rw [hnil, List.length_nil]
        omega
      · rw [hone, List.length_singleton]
        omega
  refine (hrest hrun).trans ?_
  show (r.bytes.drop p.offset).length ≤ _
  rw [List.length_drop]
  omega

/-- A record is one of a selected history, with a value of its kind. -/
theorem Reader.Remains.fits (h : r.Remains signals p recs) : ∀ rec ∈ recs,
    rec.index ∈ signals.map Signal.index ∧
      (r.encodings.getD rec.index .unsupported ≠ .unsupported →
        Query.Fits (r.encodings.getD rec.index .unsupported) rec.value) ∧
      ∀ n, rec.value = .event n → n = 1 := by
  obtain ⟨w, out, rfl, hrun⟩ := h
  intro rec hrec
  obtain ⟨hindex, tokens, letter, payload, hdecode⟩ := records_decode rfl hrun rec hrec
  exact ⟨hindex, decodeValue_fits hdecode⟩

end

/-! ## What a read hands over -/

/-- The records that remain after a position, as the slots keep them. -/
def Reader.stored (r : Reader) (bases : List Signal) (p : Position)
    (rest : List Query.Record) : Prop :=
  ∃ recs, r.Remains bases p recs ∧ rest = recs.map Record.kept

/-- A selection that is handed owned values is handed the deliveries of the records. -/
theorem visit_onDelivery {σ B : Type} (callback : σ → Query.Delivery → σ × ControlFlow B) (c : σ)
    (recs : List Record) : visit (onDelivery fun c d => callback c d.owned) c recs =
      visit callback c (recs.map Record.delivery) := by
  rw [visit_map]
  rfl

/-- Owned records are delivered as the records are. -/
theorem visitedOwned_onDelivery {σ B : Type}
    (callback : σ → Query.Delivery → σ × ControlFlow B) (c : σ)
    (recs : List Record) : visitedOwned (onDelivery fun c d => callback c d.owned) c recs =
      visit callback c (recs.map Record.delivery) := by
  rw [visit_map]
  unfold visitedOwned
  congr 1
  funext c rec
  simp only [onDelivery, Record.owned, Query.Delivery.owned, Except.map, Value.toOwned_idem,
    Record.delivery]

section
variable {r : Reader} {bases : List Signal} {stop : Nat} {recs : List Record}

/-- Deliveries decode to the records. -/
theorem decoded_delivery (recs : List Record) :
    Query.decoded (recs.map Record.delivery) = recs.map Record.kept := by
  induction recs with
  | nil => rfl
  | cons rec recs ih =>
    rw [List.map_cons, Query.decoded_cons, ih]
    rfl

theorem upTo_kept (recs : List Record) : Query.upTo stop (recs.map Record.kept) =
    (recs.takeWhile fun rec => rec.time ≤ stop).map Record.kept :=
  List.takeWhile_map ..

theorem past_kept (recs : List Record) : Query.past stop (recs.map Record.kept) =
    (recs.dropWhile fun rec => rec.time ≤ stop).map Record.kept :=
  List.dropWhile_map ..

/-- The deliveries of records in order are in order. -/
theorem ordered_delivery {t : Nat} (hle : ∀ rec ∈ recs, t ≤ rec.time)
    (hsorted : recs.Pairwise fun a b => a.time ≤ b.time) :
    Query.Ordered t (recs.map Record.delivery) := by
  induction recs generalizing t with
  | nil => trivial
  | cons rec recs ih =>
    obtain ⟨hfirst, hrest⟩ := List.pairwise_cons.1 hsorted
    exact ⟨hle rec (by simp), ih hfirst hrest⟩

/-- A read up to an end delivers the records up to it. -/
theorem Reader.Remains.delivers {p left : Position} (h : r.Remains bases p recs)
    (hleft : r.Remains bases left (recs.dropWhile fun rec => rec.time ≤ stop))
    (hle : left.time ≤ stop) :
    Query.Delivers (r.stored bases) stop (recs.map Record.kept)
      ((recs.takeWhile fun rec => rec.time ≤ stop).map Record.delivery) (some left) where
  decoded := by rw [decoded_delivery, upTo_kept]
  decodes := fun d hd base e time p heq => by
    obtain ⟨rec, -, hrec⟩ := List.mem_map.1 hd
    cases hrec.trans heq
  ordered := fun t ht => by
    refine ordered_delivery (fun rec hrec => ht _ (List.mem_map_of_mem
      ((List.takeWhile_sublist _).subset hrec))) ?_
    exact h.sorted.2.sublist (List.takeWhile_sublist _)
  located := fun pre base v time p' post hds => by
    obtain ⟨before, behind, hsplit, rfl, hbehind⟩ := List.map_eq_append_iff.1 hds
    obtain ⟨rec, after, rfl, hrec, rfl⟩ := List.map_eq_cons_iff.1 hbehind
    cases hrec
    have hremains := h
    rw [← List.takeWhile_append_dropWhile (p := fun rec : Record => decide (rec.time ≤ stop))
      (l := recs),
      hsplit, List.append_assoc, List.cons_append] at hremains
    refine ⟨⟨_, hremains.record, ?_⟩, ?_, fun τ hτ => ?_⟩
    · rw [decoded_delivery, past_kept, List.map_cons, List.map_append]
      rfl
    · exact h.position_time rec ((List.takeWhile_sublist _).subset
        (hsplit ▸ List.mem_append_right _ List.mem_cons_self))
    · obtain ⟨rec', -, hrec'⟩ := List.mem_map.1 hτ
      cases hrec'
  final := fun p' hp' => by
    cases hp'
    refine ⟨⟨_, hleft, past_kept recs⟩, hle, fun τ hτ => ?_⟩
    obtain ⟨rec', -, hrec'⟩ := List.mem_map.1 hτ
    cases hrec'
  ticks := fun τ hτ => by
    obtain ⟨rec', -, hrec'⟩ := List.mem_map.1 hτ
    cases hrec'

end

/-! ## Serving a selection -/

section
variable {r opened : Reader} {o : Opened} {bases : List Signal} {stop : Nat}

/-- Whether the threads of a whole read start does not depend on the visitor. -/
theorem Reader.parallelFull_none {σ B : Type} {env : FullEnv} {c : σ} :
    r.parallelFull (B := B) env bases stop c = none ↔
      r.parallelFull (B := Unit) env bases stop () = none := by
  unfold Reader.parallelFull
  split
  · simp
  · split
    · simp
    · split
      · simp
      · split <;> simp

/-- A serial read hands a selection the deliveries of its records. -/
theorem Reader.Reads.answers {schedule : Schedule r} {origin : Option Position} {recs : List Record}
    {left : Position} (h : r.Reads bases stop origin recs left)
    (hserial : origin = none → r.parallelFull (B := Unit) schedule.fullEnv bases stop () = none) :
    (r.source schedule).owned.Answers bases stop origin (recs.map Record.delivery)
      (.ok (some left)) := by
  intro σ B callback c
  have hparallel : origin = none → (r.parallel.bind fun _ =>
      schedule.full bases stop (onDelivery fun c d => callback c d.owned) c) = none := by
    intro horigin
    have hends := schedule.ends bases stop (onDelivery fun c d => callback c d.owned) c
    unfold Reader.FullEnds at hends
    rw [Reader.parallelFull_none.2 (hserial horigin)] at hends
    rw [hends]
    cases r.parallel <;> rfl
  have hread : r.readFrom .none
      (fun _ => schedule.full bases stop (onDelivery fun c d => callback c d.owned) c) bases
      stop origin
      (onDelivery fun c d => callback c d.owned) c = _ :=
    h σ B r.position _ (onDelivery fun c d => callback c d.owned) c hparallel
  rw [visit_onDelivery] at hread
  simp only [Reader.source, Query.Source.owned, hread]
  rcases visit callback c (recs.map Record.delivery) with ⟨c', _ | b⟩ <;> rfl

/-- A whole read hands a selection the deliveries of the records its visitor is called with. -/
theorem Reader.full_answers {schedule : Schedule r} {source : ParallelSource}
    (hsource : r.parallel = some source) {recs : List Record} {left : Position}
    (h : ∀ {σ B : Type} (visitor : σ → Record → σ × ControlFlow B) (c : σ),
      schedule.full bases stop visitor c = some (r.leaves left (visitedOwned visitor c recs))) :
    (r.source schedule).owned.Answers bases stop none (recs.map Record.delivery)
      (.ok (some left)) := by
  intro σ B callback c
  have hfull := h (onDelivery fun c d => callback c d.owned) c
  rw [visitedOwned_onDelivery] at hfull
  simp only [Reader.source, Query.Source.owned, Reader.readFrom, hsource, Option.bind_some, hfull]
  rcases visit callback c (recs.map Record.delivery) with ⟨c', _ | b⟩ <;> rfl

/-- A whole read of chunks hands a selection the deliveries of all records of the body. -/
theorem Reader.chunked_answers {cuts : List Nat} (hhead : cuts.head? = some r.body)
    (hcut : Cutting r.bytes cuts) (hopen : r.parallelOpenWithCuts cuts = some o)
    {recs : List Record} :
    let opened := r.chunked o ⟨cuts, (o.span.map TimeSpan.last).getD 0⟩
    ∀ {schedule : Schedule opened}, opened.Remains bases opened.bodyStart recs →
      opened.parallelFull (B := Unit) schedule.fullEnv bases stop () ≠ none →
      (opened.source schedule).owned.Answers bases stop none (recs.map Record.delivery)
        (.ok (some ⟨r.bytes.length, (o.span.map TimeSpan.last).getD 0, false⟩)) := by
  intro opened schedule hremains hstarts
  refine Reader.full_answers rfl fun {σ B} visitor c => ?_
  have hends := schedule.ends bases stop visitor c
  unfold Reader.FullEnds at hends
  split at hends
  · next hnone => exact absurd (Reader.parallelFull_none.1 hnone) hstarts
  next batchLen started hstart =>
  obtain ⟨s, hsteps, hjoined, hfull⟩ := hends
  rcases joined_ended hhead hcut hopen hstart hsteps hjoined hremains with
    hended | ⟨front, i, limit, message, c', -, hfails, -⟩
  · exact hfull.trans hended
  · rw [schedule.reads i] at hfails
    cases hfails

/-- Later records do not change an observation. -/
theorem sampleAt_append {w : Query.Waveform} {recs more : List Query.Record} {s : Signal} {t : Nat}
    (h : ∀ r ∈ more, t < r.time) : w.sampleAt (recs ++ more) t s = w.sampleAt recs t s := by
  unfold Query.Waveform.sampleAt
  rw [Query.countAt_append fun r hr => Nat.ne_of_gt (h r hr), Query.Waveform.committedAt_append h]

/-- The stream of a body counts its events within `u64`: each takes a byte at least. -/
theorem Reader.Remains.counted {p : Position} {recs : List Record} (h : r.Remains bases p recs)
    (hsize : r.bytes.length ≤ u64Max) : Query.Counted (recs.map Record.kept) := by
  intro base t
  have hone : ∀ n ∈ (recs.map Record.kept).map Query.Record.occurrences, n ≤ 1 := by
    intro n hn
    obtain ⟨r', hr', rfl⟩ := List.mem_map.1 hn
    obtain ⟨rec, hrec, rfl⟩ := List.mem_map.1 hr'
    have hevent := (h.fits rec hrec).2.2
    simp only [Query.Record.occurrences, Record.kept, Query.Record.owned, Record.plain]
    cases hvalue : rec.value with
    | event n => exact (hevent n hvalue).le
    | bits | real | string => exact Nat.zero_le _
  calc Query.eventsAt (recs.map Record.kept) base t
      ≤ ((recs.map Record.kept).map Query.Record.occurrences).sum := Query.eventsAt_le base t
    _ ≤ recs.length := by simpa using List.sum_le_card_nsmul _ 1 hone
    _ ≤ u64Max := h.length_le.trans hsize

/-- An opened body carries the records it holds. -/
theorem Reader.Opens.carries (h : r.Opens o opened) {w : Query.Waveform}
    (hw : w.encodings = o.encodings) (hspan : w.timeSpan = o.span) {plan : Query.Plan}
    (hfits : plan.Fits w) (hsupported : ∀ base ∈ plan.bases, base.encoding ≠ .unsupported)
    {recs : List Record} (hremains : opened.Remains plan.bases opened.bodyStart recs)
    (htimes : ∀ rec ∈ recs, rec.time ≤ (o.span.map TimeSpan.last).getD 0)
    (schedule : Schedule opened) :
    (opened.source schedule).owned.Carries w plan (recs.map Record.kept)
      (opened.stored plan.bases) := by
  have hbases : ∀ base ∈ plan.bases, w.Valid base ∧ base.computed = false := by
    intro base hbase
    obtain ⟨signal, hsignal, hsource, rfl⟩ := hfits.sources base hbase
    exact ⟨(hfits.valid signal hsignal).base, hsource⟩
  have hsorted : (recs.map Record.kept).Pairwise fun a b => a.time ≤ b.time :=
    List.pairwise_map.2 hremains.sorted.2
  refine ⟨hsorted, fun r' hr' => ?_, fun r' hr' => ?_, fun t samples p hprefix => ?_⟩
  · obtain ⟨rec, hrec, rfl⟩ := List.mem_map.1 hr'
    obtain ⟨hindex, hkind, -⟩ := hremains.fits rec hrec
    obtain ⟨base, hbase, hsame⟩ := List.mem_map.1 hindex
    have hencoding := (hbases base hbase).1.encoding (hbases base hbase).2
    have hopened : opened.encodings.getD rec.index .unsupported = base.baseEncoding := by
      rw [h.encodings, ← hw, List.getD_eq_getElem?_getD, ← hsame, hencoding, Option.getD_some]
    rw [hopened] at hkind
    have hkept : w.encodings[rec.kept.base]? = some base.baseEncoding :=
      (congrArg (fun i => w.encodings[i]?) hsame.symm).trans hencoding
    refine ⟨base.baseEncoding, hkept, (hkind fun hunsupported => ?_).toOwned⟩
    obtain ⟨signal, -, -, rfl⟩ := hfits.sources base hbase
    exact hsupported _ hbase hunsupported
  · obtain ⟨rec, hrec, rfl⟩ := List.mem_map.1 hr'
    have hle := htimes rec hrec
    rw [hspan]
    cases hlast : o.span with
    | none =>
      rw [hlast] at hle
      exact hle.trans (Nat.zero_le _)
    | some span =>
      rw [hlast] at hle
      exact hle
  · cases h with
    | serial _ hserial =>
      have hnone : (r.opened o).parallel = none := hserial
      simp only [Reader.source, Query.Source.owned, Reader.parallelPrefix, hnone] at hprefix
      cases hprefix
    | chunks hhead hcut hopen =>
      obtain ⟨done, later, hall, hdone, hlater, hsamples, htime, hleft⟩ :=
        parallelPrefix_remains hhead hcut hopen hw hbases hprefix
      obtain rfl : recs = done ++ later := Reader.Remains.unique hremains hall
      have hbehind : ∀ r' ∈ later.map Record.kept, t < r'.time := by
        intro r' hr'
        obtain ⟨rec, hrec, rfl⟩ := List.mem_map.1 hr'
        exact hlater rec hrec
      refine ⟨⟨later, hleft, ?_⟩, htime, ?_⟩
      · rw [past_kept, List.dropWhile_append_of_pos fun rec hrec => decide_eq_true (hdone rec hrec)]
        cases later with
        | nil => rfl
        | cons rec later =>
          rw [List.dropWhile_cons_of_neg]
          simpa using hlater rec List.mem_cons_self
      · rw [hsamples]
        refine List.map_congr_left fun s _ => ?_
        have hkept : done.map Record.kept = (done.map Record.plain).map Query.Record.owned := by
          rw [List.map_map]
          rfl
        rw [List.map_append, sampleAt_append hbehind, hkept, Query.sampleAt_owned]

/-- **An opened body is served.** Whichever threads start and take the next step, the reader serves
a selection the records that the body holds. -/
theorem Reader.Opens.serves (h : r.Opens o opened) (hsize : r.bytes.length ≤ u64Max)
    {w : Query.Waveform} (hw : w.encodings = o.encodings) (hspan : w.timeSpan = o.span)
    {plan : Query.Plan} (hfits : plan.Fits w)
    (hsupported : ∀ base ∈ plan.bases, base.encoding ≠ .unsupported) :
    ∃ whole, ∀ schedule : Schedule opened,
      (opened.source schedule).owned.Serves w plan whole (opened.stored plan.bases) := by
  obtain ⟨recs, hremains, htimes⟩ := h.remains plan.bases
  refine ⟨recs.map Record.kept,
    fun schedule => ⟨⟨h.carries hw hspan hfits hsupported hremains htimes
    schedule, fun stop => ?_, fun p done rest stop _ hstored hle => ?_⟩,
    hremains.counted (h.bytes ▸ hsize)⟩⟩
  · obtain ⟨left, hreads, hle, hleft⟩ :=
      @Reader.Remains.reads opened plan.bases none _ hremains stop (Nat.zero_le _)
    by_cases hstarts : opened.parallelFull (B := Unit) schedule.fullEnv plan.bases stop () = none
    · exact ⟨_, _, hreads.answers fun _ => hstarts, hremains.delivers hleft hle⟩
    · cases h with
      | serial _ hserial =>
        have hnone : (r.opened o).parallel = none := hserial
        simp only [Reader.parallelFull, hnone] at hstarts
        exact absurd trivial hstarts
      | chunks hhead hcut hopen =>
        obtain ⟨⟨batchLen, started⟩, hstart⟩ := Option.ne_none_iff_exists'.1 hstarts
        have hstop := parallelFull_stop hstart
        have hall : (recs.takeWhile fun rec => rec.time ≤ stop) = recs :=
          List.takeWhile_eq_self_iff.2 fun rec hrec =>
            decide_eq_true ((htimes rec hrec).trans hstop)
        have hnone : (recs.dropWhile fun rec => rec.time ≤ stop) = [] :=
          List.dropWhile_eq_nil_iff.2 fun rec hrec => decide_eq_true ((htimes rec hrec).trans hstop)
        have hdelivers : Query.Delivers _ stop (recs.map Record.kept)
            ((recs.takeWhile fun rec => rec.time ≤ stop).map Record.delivery)
            (some ⟨r.bytes.length, _, false⟩) :=
          hremains.delivers (hnone ▸ remains_finished _) hstop
        rw [hall] at hdelivers
        exact ⟨_, _, Reader.chunked_answers hhead hcut hopen hremains hstarts, hdelivers⟩
  · obtain ⟨recs', hremains', rfl⟩ := hstored
    obtain ⟨left, hreads, hle', hleft⟩ :=
      @Reader.Remains.reads opened plan.bases (some p) _ hremains' stop hle
    exact ⟨_, _, hreads.answers fun h => (by cases h), hremains'.delivers hleft hle'⟩

/-- The sources that the reader of an opened body is, over all the operating system may do. -/
def Reader.sources (r : Reader) (src : Query.Source) : Prop :=
  ∃ schedule : Schedule r, src = r.source schedule

/-- **Nothing cached is seen over a VCD body.** Two selections of the same handles, left by any
operations over an opened body, answer every operation alike, whichever threads start and take the
next step in any of the operations; a fresh selection is one of them. -/
theorem opened_alike (hopens : r.Opens o opened) (hsize : r.bytes.length ≤ u64Max)
    {w : Query.Waveform} (hw : w.encodings = o.encodings) (hspan : w.timeSpan = o.span)
    {sizes : Query.Sizes} {signals : List Signal} {sel sel' : Query.Selection}
    (hreached : sel.ReachedIn sizes opened.sources w signals)
    (hreached' : sel'.ReachedIn sizes opened.sources w signals)
    (schedule schedule' : Schedule opened) :
    Query.Alike sizes (opened.source schedule) sel (opened.source schedule') sel' := by
  have hfresh := hreached.fresh
  have hfresh' := hreached'.fresh
  have hsame : sel'.cleared = sel.cleared := Except.ok.inj (hfresh'.symm.trans hfresh)
  have hwaveform : sel.waveform = w := (Query.Selection.new_sound hfresh [] fun _ _ => False).2.1
  have hwaveform' : sel'.waveform = w := (Query.Selection.new_sound hfresh' [] fun _ _ => False).2.1
  have hplan : sel'.plan = sel.plan := show sel'.cleared.plan = sel.cleared.plan by rw [hsame]
  have hnew : Query.Plan.new w signals = .ok sel.plan := by
    unfold Query.Selection.new at hfresh
    split at hfresh
    · cases hfresh
    next plan hplan =>
    rw [hplan]
    exact congrArg (fun cleared => Except.ok (Query.Selection.plan cleared)) (Except.ok.inj hfresh)
  obtain ⟨whole, hserves⟩ := hopens.serves hsize hw hspan (Query.Plan.new_plans hnew).toFits
    (Query.Plan.new_supported hnew)
  have htries : ∀ src, opened.sources src →
      src.owned.Tries w sel.plan whole (opened.stored sel.plan.bases) := by
    rintro src ⟨schedule, rfl⟩
    exact (hserves schedule).toReads.tries
  refine Query.Alike.of_owned (Query.Source.Serves.alike (hwaveform.symm ▸ hserves schedule) ?_
    (hreached.sound htries) (hreached'.sound (hplan.symm ▸ htries)) hsame)
  rw [hwaveform', hplan]
  exact hserves schedule'

end

/-- A selection of a body cut before its third tick, after a traversal from tick 2 to tick 4 that
leaves snapshots. -/
theorem opened_alike_two :
    let h : Header := ⟨0, [(ascii "!", 0)], [], [.bits 1]⟩
    let bit : Signal := ⟨0, 0, false, .bits 1, .bits 1, 0⟩
    let w : Query.Waveform := ⟨0, [.bits 1], [], some ⟨1, 9⟩, fun i d h => by cases h⟩
    let opened := (h.reader (fun _ => none) (ascii "#1\n0!\n#2\n1!\n#4\n0!\n#9\n1!\n")).chunked
      ⟨some ⟨1, 9⟩, [], [.bits 1]⟩ ⟨[0, 12, 24], 9⟩
    let collect (seen : List Nat) (time : Nat) (_ : List Query.Slot) :
        List Nat × Except Error (ControlFlow Unit) := (seen ++ [time], .ok .continue)
    ∃ schedule : Schedule opened, schedule.fullEnv.starts = true ∧
      ∃ sel, Query.Selection.new w [bit] = .ok sel ∧
        Query.Alike ⟨0, 0⟩ (opened.source schedule)
          (sel.readTicksFrom ⟨0, 0⟩ (opened.source schedule) (some 2) 4 collect []).1
          (opened.source schedule) sel := by
  intro h bit w opened collect
  have hreads : ∀ index, (⟨120, true, fun _ => none⟩ : FullEnv).faults index = none := fun _ => rfl
  obtain ⟨schedule, -, hfull⟩ := Schedule.total opened ⟨120, true, fun _ => none⟩ hreads
  have hnew : ∃ sel, Query.Selection.new w [bit] = .ok sel := by
    have hok : (Query.Selection.new w [bit]).toBool = true := by decide +kernel
    cases hsel : Query.Selection.new w [bit] with
    | error e => rw [hsel] at hok; cases hok
    | ok sel => exact ⟨sel, rfl⟩
  obtain ⟨sel, hsel⟩ := hnew
  have hcut : Cutting (ascii "#1\n0!\n#2\n1!\n#4\n0!\n#9\n1!\n") [0, 12, 24] :=
    .cut (by decide) (by decide) (by decide) (.last (by decide))
  have hopens : (h.reader (fun _ => none) (ascii "#1\n0!\n#2\n1!\n#4\n0!\n#9\n1!\n")).Opens
      ⟨some ⟨1, 9⟩, [], [.bits 1]⟩ opened :=
    .chunks rfl hcut (by decide +kernel)
  have hfresh : sel.ReachedIn ⟨0, 0⟩ opened.sources w [bit] := .new hsel
  exact ⟨schedule, by rw [hfull], sel, hsel, opened_alike hopens (by decide) rfl rfl
    (.read (some 2) 4 collect [] ⟨schedule, rfl⟩ hfresh) hfresh schedule schedule⟩

end Ondas.Vcd
