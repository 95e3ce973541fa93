import Ondas.Wlf.Worker

/-!
# Point samples of WLF signals

`sample_bits` asks the native cursor for the end of the histories first and takes a projection from
it when it changed there; what is left shares one pass over the whole histories of its bases. The
reference of a projection is its whole history, settled write by write (`pointAt`). What the native
library is relied on for is `Cursor`: a traversal hands over the records of every selection that lie
in its window, in order, and possibly others up to its start.
-/

namespace Ondas.Wlf

open Library Job

/-! ## What the native cursor delivers -/

/-- What is written to a native signal: ticks and digits. -/
abbrev Written := Nat → History (List UInt8)

/-- The tick and the digits of a record. -/
def NativeRecord.write (out : NativeRecord) : Nat × List UInt8 :=
  (out.tick, ((out.data.getD []).take out.len).map toAsciiLowercase)

/-- A tick of the window of a traversal: after its start, if it has one. -/
def opened (start : Option Nat) (tick : Nat) : Bool := start.all (decide <| · < tick)

/-- The writes of one selection among the records of a window. -/
def selectionWrites (start : Option Nat) (selection : Nat) (records : List NativeRecord) :
    History (List UInt8) :=
  (records.filter fun out => decide (out.selection = selection) && opened start out.tick).map
    NativeRecord.write

/-- The records of a traversal: in its window they are of the selected signals and as wide as these,
and each selection has the writes of its signal up to the end, in order. -/
structure Delivers (width : Nat → Nat) (written : Written) (indices : List Nat)
    (start : Option Nat) (stop : Nat) (records : List NativeRecord) : Prop where
  holds : ∀ out ∈ records, opened start out.tick = true →
    ∃ native, indices[out.selection]? = some native ∧ out.data.isSome = true ∧
      out.len = width native
  writes : ∀ selection native, indices[selection]? = some native →
    selectionWrites start selection records =
      ((written native).upTo stop).filter fun e => opened start e.1

/-- The native cursor of a file serves what is written to some of its signals. -/
structure Cursor (sdk : Sdk) (path : Path) (width : Nat → Nat) (written : Written)
    (indices : List Nat) : Prop where
  next : ∀ k, sdk.next k = none
  hint : ∀ k index target, ∃ start, sdk.pointStart k index target = .ok start
  begin : ∀ k selected start stop, selected ⊆ indices →
    ∃ records, sdk.begin k path selected (Option.getD start 0) stop true = .ok records ∧
      Delivers width written selected start stop records

/-! ## The reference -/

/-- What a projection shows of the digits of its base. -/
def projected (signal : Signal) (digits : List UInt8) : Value :=
  (Value.bits (sliceDigits digits (signal.lsb + signal.width.getD 0 - 1) signal.lsb)).toOwned

/-- The writes of a base, seen through a projection. -/
def projectedWrites (signal : Signal) (h : History (List UInt8)) : History Value :=
  h.map fun e => (e.1, projected signal e.2)

/-- The state of a projection after some writes of its base: its value and its last change. -/
def pointAt (signal : Signal) (h : History (List UInt8)) : Option PointState :=
  (settleAll (projectedWrites signal h) none).map fun e => ⟨e.1, e.2⟩

/-! ## One record -/

/-- Projections are owned. -/
theorem projected_owned (signal : Signal) (digits : List UInt8) :
    (projected signal digits).toOwned = projected signal digits :=
  Value.toOwned_idem _

/-- A record of the base settles its projection. -/
theorem pointAt_concat (signal : Signal) (h : History (List UInt8)) (tick : Nat)
    (digits : List UInt8) : pointAt signal (h ++ [(tick, digits)]) =
      some (PointState.update (pointAt signal h) signal digits tick) := by
  have howned : ∀ e, settleAll (projectedWrites signal h) none = some e → e.1.toOwned = e.1 := by
    refine settleAll_forall (P := fun v : Value => v.toOwned = v) (fun e he => ?_)
      (fun e he => by cases he)
    obtain ⟨write, -, rfl⟩ := List.mem_map.1 he
    exact projected_owned signal write.2
  unfold pointAt
  rw [projectedWrites, List.map_append, ← projectedWrites, settleAll_append]
  generalize settleAll (projectedWrites signal h) none = state at howned
  show (settle tick (projected signal digits) state).map _ = _
  cases state with
  | none => rfl
  | some entry =>
    obtain ⟨v, changed⟩ := entry
    have hsame : v.sameValue (.bits (sliceDigits digits (signal.lsb + signal.width.getD 0 - 1)
        signal.lsb)) = decide (v = projected signal digits) := by
      rw [Bool.eq_iff_iff, Value.sameValue_iff, howned (v, changed) rfl, decide_eq_true_iff]
      rfl
    unfold PointState.update
    dsimp only [settle, Option.map_some]
    rw [hsame]
    by_cases hv : v = projected signal digits
    · rw [if_pos hv, if_pos (by simpa using hv)]
      rfl
    · rw [if_neg hv, if_neg (by simpa using hv)]
      rfl

/-- A record decodes to its write. -/
theorem decode_bits {out : NativeRecord} {encodings : List Encoding} {live : Live}
    (hencoding : encodings[out.selection]? = some (.bits out.len))
    (hdata : out.data.isSome = true) :
    decode out encodings live = (.ok ⟨out.selection, out.tick, .bits out.write.2⟩, live) := by
  obtain ⟨data, hdata⟩ := Option.isSome_iff_exists.1 hdata
  have hrecord : ownedRecord out encodings = .ok ⟨out.selection, out.tick, .bits out.write.2⟩ := by
    simp [ownedRecord, hencoding, recordValue, hdata, NativeRecord.write, Value.toOwned]
  unfold decode
  rw [hrecord]

/-- A record shown to projections whose states are those of their bases. -/
theorem pointRecord_map (projections : List (Nat × Signal)) (done : Written) (out : NativeRecord) :
    pointRecord projections ⟨out.selection, out.tick, .bits out.write.2⟩ out.write.2
        (projections.map fun p => pointAt p.2 (done p.1)) =
      projections.map fun p => pointAt p.2
        (done p.1 ++ if out.selection = p.1 then [out.write] else []) := by
  unfold pointRecord
  have hzip : projections.zip (projections.map fun p => pointAt p.2 (done p.1)) =
      projections.map fun p => (p, pointAt p.2 (done p.1)) := by
    simpa using List.zip_map' (f := id) (g := fun p => pointAt p.2 (done p.1)) (l := projections)
  rw [hzip, List.map_map]
  refine List.map_congr_left fun p _ => ?_
  by_cases hselection : out.selection = p.1
  · simp only [Function.comp, if_pos hselection, if_pos hselection.symm]
    exact (pointAt_concat p.2 (done p.1) out.tick out.write.2).symm
  · simp [Function.comp, hselection, Ne.symm hselection]

/-! ## Answers -/

/-- A program answers so on every handle of a file. -/
def Answers {α : Type} (path : Path) (x : OnHandle α) (a : α) : Prop :=
  ∀ live, live.handle.owner.path = path →
    ∃ live', x live = (.ok a, live') ∧ live'.handle.owner.path = path

theorem Answers.pure {α : Type} (path : Path) (a : α) : Answers path (Pure.pure a) a :=
  fun live hpath => ⟨live, rfl, hpath⟩

/-- An answer on a handle of a path, and then another one. -/
theorem Answers.bind {α β : Type} {path : Path} {x : OnHandle α} {f : α → OnHandle β} {b : β}
    (h : ∀ live, live.handle.owner.path = path → ∃ a live', x live = (.ok a, live') ∧
      live'.handle.owner.path = path ∧ Answers path (f a) b) : Answers path (x >>= f) b := by
  intro live hpath
  obtain ⟨a, live', hrun, hpath', hnext⟩ := h live hpath
  obtain ⟨live'', hrun', hpath''⟩ := hnext live' hpath'
  exact ⟨live'', (Decoder.bind_of_ok hrun).trans hrun', hpath''⟩

/-- The same when the first answer is not used further. -/
theorem Answers.then {α β : Type} {path : Path} {x : OnHandle α} {f : α → OnHandle β} {a : α}
    {b : β} (hx : Answers path x a) (hf : Answers path (f a) b) : Answers path (x >>= f) b :=
  .bind fun live hpath =>
    let ⟨live', hrun, hpath'⟩ := hx live hpath
    ⟨a, live', hrun, hpath', hf⟩

/-! ## One traversal -/

section
variable {sdk : Sdk} {path : Path} {width : Nat → Nat} {written : Written} {indices : List Nat}
  {encodings : List Encoding} {projections : List (Nat × Signal)} {start : Option Nat}

/-- The first record of a traversal is a write of its selection, or before the window. -/
theorem selectionWrites_cons (start : Option Nat) (selection : Nat) (out : NativeRecord)
    (records : List NativeRecord) : selectionWrites start selection (out :: records) =
      (if opened start out.tick then if out.selection = selection then [out.write] else [] else [])
        ++
        selectionWrites start selection records := by
  unfold selectionWrites
  rw [List.filter_cons]
  by_cases hselection : out.selection = selection <;> cases hopen : opened start out.tick <;>
    simp [hselection]

/-- The loop of a traversal settles the writes of every projection. -/
theorem pointLoop_exact (hnext : ∀ k, sdk.next k = none) {records : List NativeRecord}
    (hholds : ∀ out ∈ records, opened start out.tick = true →
      encodings[out.selection]? = some (.bits out.len) ∧ out.data.isSome = true)
    {fuel : Nat} (hfuel : records.length < fuel) (done : Written) (live : Live)
    (hrecords : live.handle.owner.traversal = records) :
    ∃ live', pointLoop sdk encodings projections start fuel
        (projections.map fun p => pointAt p.2 (done p.1)) live =
          (.ok (projections.map fun p =>
            pointAt p.2 (done p.1 ++ selectionWrites start p.1 records)), live') ∧
      live'.handle.owner.path = live.handle.owner.path := by
  induction fuel generalizing records done live with
  | zero => omega
  | succ fuel ih =>
    unfold pointLoop
    cases records with
    | nil =>
      have hend : nextNative sdk "sample" live =
          (.ok none, { live with calls := live.calls + 1 }) := by
        unfold nextNative
        rw [hnext, hrecords]
      rw [Decoder.bind_of_ok hend]
      refine ⟨{ live with calls := live.calls + 1 }, ?_, rfl⟩
      simp only [selectionWrites, List.filter_nil, List.map_nil, List.append_nil]
      rfl
    | cons out records =>
      have hout : nextNative sdk "sample" live =
          (.ok (some out), ⟨live.handle.traverse records, live.calls + 1⟩) := by
        unfold nextNative
        rw [hnext, hrecords]
      have hholds' := fun out' hout => hholds out' (List.mem_cons_of_mem out hout)
      have hfuel' : records.length < fuel := by simpa using hfuel
      rw [Decoder.bind_of_ok hout]
      dsimp only
      cases hopen : opened start out.tick with
      | false =>
        have hskip : start.any (out.tick ≤ ·) = true := by
          cases start with
          | none => cases hopen
          | some s => simpa [opened] using hopen
        rw [if_pos hskip]
        obtain ⟨live', hrun, hpath⟩ :=
          ih hholds' hfuel' done ⟨live.handle.traverse records, live.calls + 1⟩ rfl
        refine ⟨live', ?_, hpath⟩
        rw [hrun]
        simp only [selectionWrites_cons, hopen]
        rfl
      | true =>
        have hskip : ¬ start.any (out.tick ≤ ·) = true := by
          cases start with
          | none => exact Bool.false_ne_true
          | some s => simpa [opened] using hopen
        obtain ⟨hencoding, hdata⟩ := hholds out List.mem_cons_self hopen
        rw [if_neg hskip, Decoder.bind_of_ok (decode_bits hencoding hdata)]
        dsimp only
        rw [pointRecord_map]
        obtain ⟨live', hrun, hpath⟩ := ih hholds' hfuel'
          (fun i => done i ++ if out.selection = i then [out.write] else [])
          ⟨live.handle.traverse records, live.calls + 1⟩ rfl
        refine ⟨live', ?_, hpath⟩
        rw [hrun]
        simp only [selectionWrites_cons, hopen, if_true, List.append_assoc]

/-- A traversal leaves every projection the state that the writes in its window settle. -/
theorem pointStates_exact (hcursor : Cursor sdk path width written indices) {selected : List Nat}
    (hselected : selected ⊆ indices)
    (hencodings : ∀ (i native : Nat), selected[i]? = some native →
      encodings[i]? = some (.bits (width native)))
    (hprojections : ∀ p ∈ projections, p.1 < selected.length) (start : Option Nat) (stop : Nat) :
    Answers path (pointStates sdk selected encodings projections start stop)
      (projections.map fun p => pointAt p.2
        (((written (selected.getD p.1 0)).upTo stop).filter fun e => opened start e.1)) := by
  intro live hpath
  obtain ⟨records, hbegin, hdelivers⟩ := hcursor.begin live.calls selected start stop hselected
  have hstarted : beginNative sdk selected (start.getD 0) stop true live =
      (.ok (), ⟨live.handle.traverse records, live.calls + 1⟩) := by
    unfold beginNative
    rw [hpath, hbegin]
  have hholds : ∀ out ∈ records, opened start out.tick = true →
      encodings[out.selection]? = some (.bits out.len) ∧ out.data.isSome = true := by
    intro out hout hopen
    obtain ⟨native, hnative, hdata, hlen⟩ := hdelivers.holds out hout hopen
    exact ⟨hlen ▸ hencodings _ _ hnative, hdata⟩
  obtain ⟨live', hrun, hpath'⟩ :=
    pointLoop_exact hcursor.next hholds (Nat.lt_succ_self _) (fun _ => [])
      ⟨live.handle.traverse records, live.calls + 1⟩ rfl
  refine ⟨live', ?_, hpath'.trans hpath⟩
  unfold pointStates
  rw [Decoder.bind_of_ok hstarted]
  refine (Decoder.bind_of_ok rfl).trans (hrun.trans ?_)
  congr 2
  refine List.map_congr_left fun p hp => ?_
  have hnative := List.getElem?_eq_getElem (hprojections p hp)
  rw [List.nil_append, hdelivers.writes p.1 _ hnative, List.getD_eq_getElem?_getD, hnative]
  rfl

/-! ## A sample -/

/-- The sample of a projection by its whole history up to a tick. -/
def foldedSample (written : Written) (indices : List Nat) (target : Nat)
    (projection : Nat × Signal) : Query.Sample :=
  wholeSample projection
    (pointAt projection.2 ((written (indices.getD projection.1 0)).upTo target))

/-- A change in the end of a history is the last one of the whole. -/
theorem knownSample_whole {h : History (List UInt8)} (hsorted : h.Sorted) (s : Nat)
    (projection : Nat × Signal) {sample : Query.Sample}
    (hknown : knownSample projection
      (pointAt projection.2 (h.filter fun e => decide (s < e.1))) = some sample) :
    sample = wholeSample projection (pointAt projection.2 h) := by
  obtain ⟨first, hfirst⟩ := hsorted.after s
  unfold knownSample pointAt at hknown
  rcases hend : settleAll (projectedWrites projection.2 (h.filter fun e => decide (s < e.1))) none
    with - | ⟨v, - | t⟩
  · rw [hend] at hknown; cases hknown
  · rw [hend] at hknown; cases hknown
  · rw [hend] at hknown
    cases hknown
    have hwhole : settleAll (projectedWrites projection.2 h) none = some (v, some t) := by
      rw [hfirst, projectedWrites, List.map_append, settleAll_append]
      exact settleAll_changed hend _
    unfold pointAt
    rw [hwhole]
    rfl

/-- The missing samples filled in their places. -/
theorem fillMissing_eq {known : Nat × Signal → Option Query.Sample}
    {whole : Nat × Signal → Query.Sample} (hknown : ∀ p ∈ projections, ∀ sample,
      known p = some sample → sample = whole p) :
    sampleStates.fillMissing (projections.map known)
      ((projections.filter fun p => (known p).isNone).map whole) = projections.map whole := by
  induction projections with
  | nil => rfl
  | cons p projections ih =>
    have hrest := ih fun p hp => hknown p (List.mem_cons_of_mem _ hp)
    cases hp : known p with
    | some sample =>
      rw [List.map_cons, hp, List.filter_cons_of_neg (by simp [hp]), List.map_cons,
        ← hknown p List.mem_cons_self sample hp, ← hrest]
      rfl
    | none =>
      rw [List.map_cons, hp, List.filter_cons_of_pos (by simp [hp]), List.map_cons, List.map_cons,
        ← hrest]
      rfl

/-- What is left after the end of the histories is sampled from the whole ones. -/
theorem sampleRest_exact (hcursor : Cursor sdk path width written indices)
    (hencodings : ∀ (i native : Nat), indices[i]? = some native →
      encodings[i]? = some (.bits (width native)))
    (hprojections : ∀ p ∈ projections, p.1 < indices.length) {target : Nat}
    {recent : Nat × Signal → Option PointState}
    (hrecent : ∀ p ∈ projections, ∀ sample, knownSample p (recent p) = some sample →
      sample = foldedSample written indices target p) :
    Answers path (do
      let samples := (projections.zip (projections.map recent)).map fun entry =>
        knownSample entry.1 entry.2
      let left := ((projections.zip samples).filter fun entry => entry.2.isNone).map Prod.fst
      let bases := (left.map Prod.fst).reverse.dedup.reverse
      let fallback := left.map fun projection => (bases.idxOf projection.1, projection.2)
      if fallback.isEmpty then pure (samples.filterMap id)
      else do
        let states ← pointStates sdk (bases.map fun base => indices.getD base 0)
          (bases.map fun base => encodings.getD base .unsupported) fallback none target
        let whole := (fallback.zip states).map fun entry => wholeSample entry.1 entry.2
        pure (sampleStates.fillMissing samples whole))
      (projections.map (foldedSample written indices target)) := by
  have hzip : ∀ {β : Type} (f : Nat × Signal → β),
      projections.zip (projections.map f) = projections.map fun p => (p, f p) := fun f => by
    simpa using List.zip_map' (f := id) (g := f) (l := projections)
  have hsamples : (projections.zip (projections.map recent)).map
      (fun entry => knownSample entry.1 entry.2) =
        projections.map fun p => knownSample p (recent p) := by
    rw [hzip, List.map_map]
    rfl
  have hleft : ((projections.zip (projections.map fun p => knownSample p (recent p))).filter
      fun entry => entry.2.isNone).map Prod.fst =
        projections.filter fun p => (knownSample p (recent p)).isNone := by
    rw [hzip, List.filter_map, List.map_map]
    exact List.map_id _
  have hfill := fillMissing_eq (fun p hp => hrecent p hp)
  dsimp only
  rw [hsamples, hleft]
  generalize hlefts : (projections.filter fun p => (knownSample p (recent p)).isNone) = left
    at hfill ⊢
  have hmem : ∀ p ∈ left, p.1 < indices.length := fun p hp => by
    rw [← hlefts] at hp
    exact hprojections p (List.mem_filter.1 hp).1
  obtain ⟨bases, hbases⟩ : ∃ bases, (left.map Prod.fst).reverse.dedup.reverse = bases := ⟨_, rfl⟩
  have hin : ∀ base, base ∈ bases ↔ ∃ p ∈ left, p.1 = base := fun base => by
    rw [← hbases, List.mem_reverse, List.mem_dedup, List.mem_reverse, List.mem_map]
  rw [hbases]
  by_cases hempty : left = []
  · subst hempty
    have hnone : ∀ samples, sampleStates.fillMissing samples [] = samples.filterMap id := by
      intro samples
      induction samples with
      | nil => rfl
      | cons sample samples ih => cases sample <;> simpa [sampleStates.fillMissing] using ih
    have hfilled : (projections.map fun p => knownSample p (recent p)).filterMap id =
        projections.map (foldedSample written indices target) := by
      rw [← hfill, List.map_nil, hnone]
    rw [← hfilled]
    exact .pure path _
  · have hselected : (bases.map fun base => indices.getD base 0) ⊆ indices := by
      intro native hnative
      obtain ⟨base, hbase, rfl⟩ := List.mem_map.1 hnative
      obtain ⟨p, hp, rfl⟩ := (hin base).1 hbase
      rw [List.getD_eq_getElem?_getD, List.getElem?_eq_getElem (hmem p hp)]
      exact List.getElem_mem _
    have hencodings' : ∀ (i native : Nat), (bases.map fun base => indices.getD base 0)[i]? =
        some native → (bases.map fun base => encodings.getD base .unsupported)[i]? =
          some (.bits (width native)) := by
      intro i native hi
      rw [List.getElem?_map, Option.map_eq_some_iff] at hi
      obtain ⟨base, hbase, rfl⟩ := hi
      obtain ⟨p, hp, rfl⟩ := (hin base).1 (List.mem_of_getElem? hbase)
      have hget := List.getElem?_eq_getElem (hmem p hp)
      rw [List.getElem?_map, hbase, Option.map_some, List.getD_eq_getElem?_getD,
        List.getD_eq_getElem?_getD, hencodings _ _ hget, hget]
      rfl
    have hfallback : ∀ q ∈ left.map (fun p => (bases.idxOf p.1, p.2)),
        q.1 < (bases.map fun base => indices.getD base 0).length := by
      intro q hq
      obtain ⟨p, hp, rfl⟩ := List.mem_map.1 hq
      rw [List.length_map]
      exact List.idxOf_lt_length_of_mem ((hin p.1).2 ⟨p, hp, rfl⟩)
    have hstates := pointStates_exact hcursor hselected hencodings' hfallback none target
    have hwhole : ((left.map fun p => (bases.idxOf p.1, p.2)).zip
        ((left.map fun p => (bases.idxOf p.1, p.2)).map fun q => pointAt q.2
          (((written ((bases.map fun base => indices.getD base 0).getD q.1 0)).upTo target).filter
            fun e => opened none e.1))).map (fun entry => wholeSample entry.1 entry.2) =
          left.map (foldedSample written indices target) := by
      rw [List.map_map, List.zip_map', List.map_map]
      refine List.map_congr_left fun p hp => ?_
      have hbase : bases[bases.idxOf p.1]? = some p.1 :=
        List.getElem?_idxOf ((hin p.1).2 ⟨p, hp, rfl⟩)
      have hall : ∀ h : History (List UInt8), h.filter (fun e => opened none e.1) = h :=
        fun h => List.filter_eq_self.2 fun _ _ => rfl
      simp only [Function.comp, hall, foldedSample, List.getD_eq_getElem?_getD, List.getElem?_map,
        hbase, Option.map_some, Option.getD_some]
      rfl
    rw [if_neg (by simpa using hempty)]
    refine hstates.then ?_
    rw [hwhole, hfill]
    exact .pure path _

/-- The body of a sample answers with the whole history of every projection. -/
theorem sampleStates_exact (hcursor : Cursor sdk path width written indices)
    (hsorted : ∀ native ∈ indices, (written native).Sorted)
    (hencodings : ∀ (i native : Nat), indices[i]? = some native →
      encodings[i]? = some (.bits (width native)))
    (hprojections : ∀ p ∈ projections, p.1 < indices.length) (target : Nat) :
    Answers path (sampleStates sdk indices encodings projections target)
      (projections.map (foldedSample written indices target)) := by
  -- Whatever the hint is, a projection that changed after it is taken from there.
  have hknown : ∀ s, ∀ p ∈ projections, ∀ sample, knownSample p (pointAt p.2
      (((written (indices.getD p.1 0)).upTo target).filter fun e => decide (s < e.1))) =
        some sample → sample = foldedSample written indices target p := by
    intro s p hp sample hsample
    have hmem : indices.getD p.1 0 ∈ indices := by
      rw [List.getD_eq_getElem?_getD, List.getElem?_eq_getElem (hprojections p hp)]
      exact List.getElem_mem _
    exact knownSample_whole ((hsorted _ hmem).sublist List.filter_sublist) s p hsample
  have hsuffix := fun s => pointStates_exact hcursor (List.Subset.refl _) hencodings
    hprojections (some s) target
  unfold sampleStates
  dsimp only
  split
  · split
    · next index hall =>
      refine .bind fun live hpath => ?_
      obtain ⟨hint, hhint⟩ := hcursor.hint live.calls index target
      refine ⟨hint, ⟨live.handle.traverse [], live.calls + 1⟩, ?_, hpath,
        (hsuffix _).then (sampleRest_exact hcursor hencodings hprojections (hknown _))⟩
      unfold pointStartNative
      rw [hhint]
    · exact (Answers.pure path none).then
        ((hsuffix _).then (sampleRest_exact hcursor hencodings hprojections (hknown _)))
  · exact (Answers.pure path _).then
      (sampleRest_exact hcursor hencodings hprojections fun _ _ _ h => by cases h)

/-- **A point sample is the full fold.** While the native cursor delivers what is written to the
bases, a sample of any projections of any bases at any time answers, for each projection in order,
with what its whole history up to the time and the end of the file settles to: nothing, or the value
and its last change. -/
theorem sample_exact {id : Nat} {f : File} {handle : Handle} {w w' : World}
    (hfile : file sdk id w = (.ok (f, handle), w'))
    (hcursor : Cursor sdk handle.owner.path width written indices)
    (hsorted : ∀ native ∈ indices, (written native).Sorted)
    (hbits : ∀ native ∈ indices, f.encodings[native]? = some (.bits (width native)))
    (hprojections : ∀ p ∈ projections, p.1 < indices.length) (time : Nat) :
    (sampleBits sdk id indices projections time w).1 =
      .ok (projections.map (foldedSample written indices (min time f.last))) := by
  have hencodings : ∀ (i native : Nat), indices[i]? = some native →
      (indices.map fun index => f.encodings.getD index .unsupported)[i]? =
        some (.bits (width native)) := by
    intro i native hnative
    rw [List.getElem?_map, hnative, Option.map_some, List.getD_eq_getElem?_getD,
      hbits native (List.mem_of_getElem? hnative)]
    rfl
  obtain ⟨live', hsample, -⟩ := sampleStates_exact hcursor hsorted hencodings hprojections
    (min time f.last) ⟨handle, w'.calls⟩ rfl
  unfold sampleBits
  rw [Decoder.bind_of_ok hfile]
  dsimp only
  have hon : onHandle handle (sampleStates sdk indices
      (indices.map fun index => f.encodings.getD index .unsupported) projections
      (min time f.last)) w' =
      (.ok (.ok (projections.map (foldedSample written indices (min time f.last))), live'.handle),
        { w' with calls := live'.calls }) := by
    unfold onHandle
    rw [hsample]
  rw [Decoder.bind_of_ok hon]
  rfl

end

/-! ## Histories in memory -/

/-- The record of a write. -/
def memoryRecord (selection : Nat) (e : Nat × List UInt8) : NativeRecord :=
  ⟨selection, e.1, 0, some e.2, e.2.length, 0⟩

/-- The records from a tick to an end, one selection after the other. -/
def memoryRecords (written : Written) (selected : List Nat) (start stop : Nat) :
    List NativeRecord :=
  selected.zipIdx.flatMap fun entry =>
    (((written entry.1).upTo stop).filter fun e => decide (start ≤ e.1)).map
      (memoryRecord entry.2)

/-- A library whose files hold these histories. Its hint for a point is the tick before it. -/
def memorySdk (written : Written) : Sdk :=
  ⟨fun _ _ => none, fun _ _ => false, fun _ => none, fun _ _ => none, fun _ => [],
    fun _ _ _ _ => .ok none, fun _ _ selected start stop _ =>
      .ok (memoryRecords written selected start stop),
    fun _ _ target => .ok (some (target - 1)), fun _ => none, fun _ _ => 0, fun _ => true⟩

/-- The entries with one number are those of one member. -/
theorem flatMap_zipIdx {α β : Type} (g : α → List β) (selection : Nat) (xs : List α) (k : Nat) :
    (xs.zipIdx k).flatMap (fun entry => if entry.2 = k + selection then g entry.1 else []) =
      (xs[selection]?.map g).getD [] := by
  induction xs generalizing k selection with
  | nil => rfl
  | cons x xs ih =>
    rw [List.zipIdx_cons, List.flatMap_cons]
    cases selection with
    | zero =>
      have hlater : (xs.zipIdx (k + 1)).flatMap
          (fun entry => if entry.2 = k + 0 then g entry.1 else []) = [] := by
        refine List.flatMap_eq_nil_iff.2 fun entry hentry => ?_
        have hle := List.le_snd_of_mem_zipIdx hentry
        rw [if_neg (by omega)]
      rw [hlater]
      simp
    | succ selection =>
      have hnext := ih selection (k + 1)
      rw [show k + 1 + selection = k + (selection + 1) by omega] at hnext
      rw [hnext, if_neg (by simp)]
      rfl

/-- The records of one selection are its writes. -/
theorem selectionWrites_memory {h : History (List UInt8)}
    (howned : ∀ e ∈ h, e.2.map toAsciiLowercase = e.2) (start : Option Nat) (i selection : Nat) :
    selectionWrites start selection
        ((h.filter fun e => decide (start.getD 0 ≤ e.1)).map (memoryRecord i)) =
      if i = 0 + selection then h.filter fun e => opened start e.1 else [] := by
  unfold selectionWrites
  rw [List.filter_map, List.map_map, List.filter_filter, Nat.zero_add]
  by_cases hi : i = selection
  · have hwindow : ∀ e ∈ h, (((fun out : NativeRecord => decide (out.selection = selection) &&
        opened start out.tick) ∘ memoryRecord i) e && decide (start.getD 0 ≤ e.1)) =
          opened start e.1 := by
      intro e _
      cases start with
      | none => simp [memoryRecord, hi, opened]
      | some s =>
        simp only [Function.comp, memoryRecord, hi, opened, Option.all_some, Option.getD_some,
          decide_true, Bool.true_and, Bool.and_eq_left_iff_imp, decide_eq_true_eq]
        exact Nat.le_of_lt
    rw [if_pos hi, List.filter_congr hwindow]
    refine (List.map_congr_left fun e he => ?_).trans (List.map_id _)
    have hlower := howned e (List.mem_filter.1 he).1
    simp [memoryRecord, NativeRecord.write, hlower]
  · rw [if_neg hi, List.map_eq_nil_iff, List.filter_eq_nil_iff]
    intro e _
    simp [memoryRecord, hi]

/-- Histories in memory are delivered. -/
theorem memoryRecords_delivers {width : Nat → Nat} {written : Written}
    (hwrites : ∀ native, ∀ e ∈ written native,
      e.2.length = width native ∧ e.2.map toAsciiLowercase = e.2)
    (selected : List Nat) (start : Option Nat) (stop : Nat) :
    Delivers width written selected start stop
      (memoryRecords written selected (start.getD 0) stop) where
  holds := by
    intro out hout _
    obtain ⟨entry, hentry, hout⟩ := List.mem_flatMap.1 hout
    obtain ⟨e, he, rfl⟩ := List.mem_map.1 hout
    have hmem := (List.mem_filter.1 (List.mem_filter.1 he).1).1
    exact ⟨entry.1, List.mem_zipIdx_iff_getElem?.1 hentry, rfl, (hwrites entry.1 e hmem).1⟩
  writes := by
    intro selection native hnative
    have hentry := fun entry : Nat × Nat =>
      selectionWrites_memory (h := (written entry.1).upTo stop)
      (fun e he => (hwrites entry.1 e (List.mem_filter.1 he).1).2) start entry.2 selection
    unfold selectionWrites memoryRecords
    rw [List.filter_flatMap, List.map_flatMap]
    refine (List.flatMap_congr fun entry _ => hentry entry).trans ?_
    rw [flatMap_zipIdx (fun native => ((written native).upTo stop).filter fun e =>
      opened start e.1),
      hnative]
    rfl

/-- The library over values in memory keeps the laws of a cursor. -/
theorem memorySdk_cursor {width : Nat → Nat} {written : Written}
    (hwrites : ∀ native, ∀ e ∈ written native,
      e.2.length = width native ∧ e.2.map toAsciiLowercase = e.2) (path : Path) (indices :
      List Nat) :
    Cursor (memorySdk written) path width written indices where
  next := fun _ => rfl
  hint := fun _ _ target => ⟨some (target - 1), rfl⟩
  begin := fun _ selected start stop _ =>
    ⟨_, rfl, memoryRecords_delivers hwrites selected start stop⟩

/-- A bit that changed at tick 40, sampled at tick 45 with a hint that is too late. -/
theorem sample_exact_bit :
    let written : Written := fun native => if native = 0 then [(2, [48]), (40, [49])] else []
    let bit : Signal := ⟨1, 0, false, .bits 1, .bits 1, 0⟩
    let handle : Handle := ⟨⟨[97], ⟨0, 50, 9, none⟩, [], [], 0⟩, none, true⟩
    let f : File := ⟨[97], [98], 9, 50, [.bits 1], some handle, none⟩
    let state : State := { State.initial with resolution := some 9 }
    (sampleBits (memorySdk written) 1 [0] [(0, bit)] 45 ⟨state.put 1 f, 0⟩).1 =
      .ok [.value bit (.bits [49]) (some 40)] := by
  intro written bit handle f state
  have hfound : file (memorySdk written) 1 ⟨state.put 1 f, 0⟩ =
      (.ok (f, handle), ⟨state.put 1 f, 0⟩) := by
    have hkeep : modify (·.selectResolution f.resolution) ⟨state.put 1 f, 0⟩ =
        (.ok (), (⟨state.put 1 f, 0⟩ : World)) :=
      congrArg (fun s => (Except.ok (), World.mk s 0))
        (show (state.put 1 f).selectResolution 9 = state.put 1 f from if_pos rfl)
    have hlook : (Decoder.look fun w : World => w.state.files[1]? : Job (Option File))
        ⟨state.put 1 f, 0⟩ = (.ok (some f), ⟨state.put 1 f, 0⟩) :=
      congrArg (fun found => (Except.ok found, _))
        (show (state.put 1 f).files[1]? = some f from Std.HashMap.getElem?_insert_self)
    refine Decoder.bind_eq_ok.2 ⟨_, _, hlook, Decoder.bind_eq_ok.2 ⟨_, _, hkeep, ?_⟩⟩
    exact Decoder.bind_eq_ok.2 ⟨_, _, hlook, rfl⟩
  have hwrites : ∀ native, ∀ e ∈ written native,
      e.2.length = 1 ∧ e.2.map toAsciiLowercase = e.2 := by
    intro native e he
    by_cases hnative : native = 0
    · simp only [written, if_pos hnative, List.mem_cons, List.not_mem_nil, or_false] at he
      rcases he with rfl | rfl <;> decide
    · simp only [written, if_neg hnative, List.not_mem_nil] at he
  have hsample := sample_exact hfound (memorySdk_cursor hwrites [97] [0])
    (by
      intro native hnative
      rw [List.mem_singleton.1 hnative]
      show List.Pairwise (fun a b : Nat × List UInt8 => a.1 ≤ b.1) [(2, [48]), (40, [49])]
      decide)
    (by
      intro native hnative
      rw [List.mem_singleton.1 hnative]
      rfl)
    (show ∀ p ∈ [((0 : Nat), bit)], p.1 < [0].length from fun p hp => by
      rw [List.mem_singleton.1 hp]
      decide) 45
  rw [hsample]
  decide +kernel

end Ondas.Wlf
