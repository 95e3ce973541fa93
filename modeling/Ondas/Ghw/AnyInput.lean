import Ondas.Ghw.Indexed

/-!
# Indexed reads of any input

The input of a read need not hold what the index was built of: its reads can fail, and a file can be
overwritten. The cursors of a query do not depend on the input. A scan of whatever is found there
hands over values of the active types with the routes of their source IDs (`scanAll_sound`), or
fails as the input does; and the cursors are moved on as they are on the body that was accepted
(`Turning.step_any`). So an indexed read hands over events that are delivered, and nothing happens
that must not happen (`read_any`).
-/

namespace Ondas.Ghw

open Library Wire Assembly

namespace Index

/-- A scan hands over what is delivered, and fails only as the input does. -/
structure SoundScan (t : Types) (active : Active) (ids : List Nat) (r : Scanned) : Prop where
  delivered : ∀ e ∈ r.1, Delivers t active ids e
  fails : ∀ fault, r.2.1 ≠ .error (.fault fault)

section
variable {t : Types} {active : Active} {ids ranks : List Nat} {frame : Frame} {s : Selected}

/-! ## Scans -/

variable (t active ids) in
/-- A scan that ends without a record is sound. -/
theorem soundScan_end (w : Wire) : SoundScan t active ids ([], .ok (), w) :=
  ⟨fun _ he => absurd he List.not_mem_nil, fun _ h => by cases h⟩

variable (t active ids) in
/-- A scan that fails as the input does is sound. -/
theorem soundScan_error (e : Error) (w : Wire) :
    SoundScan t active ids ([], .error (.error e), w) :=
  ⟨fun _ he => absurd he List.not_mem_nil, fun _ h => by cases h⟩

/-- A selected record is delivered, whatever its payload is. -/
theorem scanRecord_delivers (hplaced : List.Forall₂ (PlacedAt active) ids ranks)
    (hsorted : ranks.Pairwise (· < ·)) (hcovers : Covers ranks s) {rank id type : Nat}
    (hget : active[rank]? = some (id, type)) (hbase : s.cursor.group * ranksPerGroup ≤ rank)
    (hlocal : rank - s.cursor.group * ranksPerGroup < ranksPerGroup) :
    Decoder.Ensures (fun event => ∀ e ∈ event, Delivers t active ids e)
      (scanRecord t frame s (s.cursor.group * ranksPerGroup) rank id type) := by
  intro w event w' h e he
  cases he
  unfold scanRecord at h
  dsimp only at h
  split at h
  · next hbit =>
    obtain ⟨offset, w₁, -, h⟩ := Decoder.bind_eq_ok.1 h
    obtain ⟨value, w₂, hvalue, h⟩ := Decoder.bind_eq_ok.1 h
    cases h
    have hrank : s.cursor.group * ranksPerGroup + (rank - s.cursor.group * ranksPerGroup) = rank :=
      Nat.add_sub_of_le hbase
    have hmem := (hcovers.mask _ hlocal).symm.trans ((mask_bit _ _).1 hbit)
    rw [hrank, decide_eq_true_eq] at hmem
    refine ⟨⟨type, hget, scalar_stored type _ _ _ hvalue⟩, .inr ?_⟩
    have hroute := hcovers.route hsorted hlocal (hrank.symm ▸ hmem)
    rw [hrank] at hroute
    dsimp only
    rw [hroute]
    exact route_placed hplaced ⟨type, hget⟩ hmem
  · obtain ⟨_, w₁, -, h⟩ := Decoder.bind_eq_ok.1 h
    cases h

/-- A scan goes on at a higher rank. -/
theorem scanNext_lt (frame : Frame) (rank : Nat) :
    Decoder.Ensures (fun next => ∀ next' ∈ next, rank < next') (scanNext frame rank) := by
  intro w next w' h next' hnext
  cases hnext
  unfold scanNext at h
  split at h
  · obtain ⟨delta, w₁, -, h⟩ := Decoder.bind_eq_ok.1 h
    split at h
    · cases h
    · obtain ⟨_, w₂, -, h⟩ := Decoder.bind_eq_ok.1 h
      cases h
      omega
  · cases h
    exact Nat.lt_succ_self _

/-- The turns of a scan are sound, by induction on those that are left. -/
theorem scanLoop_sound (hplaced : List.Forall₂ (PlacedAt active) ids ranks)
    (hsorted : ranks.Pairwise (· < ·)) (hcovers : Covers ranks s) {groupEnd : Nat}
    (hactive : groupEnd ≤ active.length)
    (hgroup : groupEnd ≤ s.cursor.group * ranksPerGroup + ranksPerGroup) (left : Nat) :
    ∀ (rank : Nat) (w : Wire), s.cursor.group * ranksPerGroup ≤ rank → rank < groupEnd →
      groupEnd ≤ rank + left → SoundScan t active ids
        (scanLoop t active frame s (s.cursor.group * ranksPerGroup) groupEnd left rank w) := by
  induction left with
  | zero => exact fun rank w _ hlt hleft => absurd hlt hleft.not_gt
  | succ left ih =>
    intro rank w hbase hlt hleft
    obtain ⟨⟨id, type⟩, hget⟩ : ∃ found, active[rank]? = some found :=
      ⟨_, List.getElem?_eq_getElem (hlt.trans_le hactive)⟩
    unfold scanLoop
    rw [hget]
    dsimp only
    rcases hrecord : scanRecord t frame s (s.cursor.group * ranksPerGroup) rank id type w with
      ⟨e | event, w₁⟩
    · exact soundScan_error t active ids e w₁
    have hevent := scanRecord_delivers hplaced hsorted hcovers hget hbase (by omega) w event w₁
      hrecord
    have hrest : SoundScan t active ids (scanOn active s groupEnd
        (scanLoop t active frame s (s.cursor.group * ranksPerGroup) groupEnd left)
        (scanNext frame rank w₁)) := by
      rcases hnext : scanNext frame rank w₁ with ⟨e | next, w₂⟩
      · exact soundScan_error t active ids e w₂
      have hhigher := scanNext_lt frame rank w₁ next w₂ hnext
      cases next with
      | none => exact soundScan_end t active ids w₂
      | some next =>
        have hrank := hhigher next rfl
        unfold scanOn
        dsimp only
        split
        · exact soundScan_end t active ids w₂
        · next hends =>
          exact ih next w₂ (by omega) (by omega) (by omega)
    refine ⟨fun e he => ?_, hrest.fails⟩
    rcases List.mem_append.1 he with he | he
    · exact hevent e (Option.mem_toList.1 he)
    · exact hrest.delivered e he

/-- A scan of a group is sound. -/
theorem scan_sound (hplaced : List.Forall₂ (PlacedAt active) ids ranks)
    (hsorted : ranks.Pairwise (· < ·)) (hcovers : Covers ranks s) (w : Wire) :
    SoundScan t active ids (scan t active frame s w) := by
  unfold scan
  dsimp only
  split
  · exact soundScan_end t active ids w
  · exact scanLoop_sound hplaced hsorted hcovers (Nat.min_le_right _ _) (Nat.min_le_left _ _) _ _ _
      (Nat.le_add_right _ _) (by omega) (by omega)

/-- **The scans of a turn are sound**, whatever input they read. -/
theorem scanAll_sound (hplaced : List.Forall₂ (PlacedAt active) ids ranks)
    (hsorted : ranks.Pairwise (· < ·)) {cursors : List Selected}
    (hcovers : ∀ s ∈ cursors, Covers ranks s) :
    ∀ (slots : List Nat) (w : Wire), (∀ slot ∈ slots, slot < cursors.length) →
      SoundScan t active ids (scanAll t active frame cursors slots w)
  | [], w, _ => soundScan_end t active ids w
  | slot :: slots, w, hslots => by
    obtain ⟨s, hs⟩ : ∃ s, cursors[slot]? = some s :=
      ⟨_, List.getElem?_eq_getElem (hslots slot (.head _))⟩
    have hscan : SoundScan t active ids (scan t active frame s w) :=
      scan_sound hplaced hsorted (hcovers s (List.mem_of_getElem? hs)) w
    unfold scanAll
    rw [hs]
    dsimp only
    generalize scan t active frame s w = scanned at hscan
    obtain ⟨events, e | _, w₁⟩ := scanned
    · exact hscan
    have hrest := scanAll_sound hplaced hsorted hcovers slots w₁ fun slot hslot =>
      hslots slot (.tail _ hslot)
    refine ⟨fun e he => ?_, hrest.fails⟩
    rcases List.mem_append.1 he with he | he
    · exact hscan.delivered e he
    · exact hrest.delivered e he

/-! ## Turns -/

variable {checked : Bool} {x : Index} {groups : List Nat} {n stop : Nat} {list : SourceList}
  {lists : List SourceList} {r : Reading}

variable (t active ids) in
/-- The end of a time has no scalars. -/
theorem delivered_closing (current : Option Nat) :
    EventsDelivered t active ids (closing current) := by
  intro e he
  have hmem := mem_scalars.2 he
  rw [scalars_closing] at hmem
  cases hmem

/-- Delivered scalars after the end of a time. -/
theorem delivered_turn (current : Option Nat) {records : List ScalarEvent}
    (hrecords : ∀ e ∈ records, Delivers t active ids e) :
    EventsDelivered t active ids (closing current ++ records.map Event.scalar) := by
  intro e he
  rcases List.mem_append.1 he with he | he
  · exact delivered_closing t active ids current e he
  · obtain ⟨e', he', heq⟩ := List.mem_map.1 he
    cases heq
    exact hrecords e he'

variable (stop) in
/-- **A turn reads what it finds at the next list.** It hands over events that are delivered. It
fails as the input does, or goes on as on the body that was accepted. -/
theorem Turning.step_any (hplaced : List.Forall₂ (PlacedAt active) ids ranks)
    (hsorted : ranks.Pairwise (· < ·))
    (h : Turning checked x ranks groups r.wire n (list :: lists) r)
    (htouched : ∃ e ∈ list.records, e.rank / ranksPerGroup ∈ groups) :
    (stop < list.time → readStep checked x t active stop r = (closing r.current, .stop (.ok ()))) ∧
    (list.time ≤ stop → ∃ emitted outcome, EventsDelivered t active ids emitted ∧
      readStep checked x t active stop r = (emitted, outcome) ∧
      ((∃ e, outcome = .stop (.error (.error e))) ∨ ∃ r', outcome = .next r' ∧
        Turning checked x ranks groups r'.wire (after n list) lists r')) := by
  obtain ⟨pending, above, hfront, hlist, hpending, hstored⟩ := h.turn htouched
  obtain ⟨hpast, hturn, hfails⟩ := readStep_front hfront hpending hstored
  refine ⟨hpast, fun hstop => ?_⟩
  have hscans : SoundScan t active ids
      (scanAll t active ⟨list.time, list.cyclic⟩ r.cursors pending r.wire) :=
    scanAll_sound hplaced hsorted h.standing.covers pending r.wire fun slot hslot =>
      h.standing.slots _ (hfront.mem.2 hslot)
  rcases hscan : scanAll t active ⟨list.time, list.cyclic⟩ r.cursors pending r.wire with
    ⟨records, failure | _, w⟩
  · rw [hscan] at hscans
    refine ⟨_, _, delivered_turn _ hscans.delivered, hfails _ _ _ hstop hscan, .inl ?_⟩
    cases failure with
    | error e => exact ⟨e, rfl⟩
    | fault fault => exact absurd rfl (hscans.fails fault)
  · rw [hscan] at hscans
    obtain ⟨cursors, heap, hadvance, hstanding⟩ := h.advances hfront hlist
    exact ⟨_, _, delivered_turn _ hscans.delivered, hturn _ _ _ _ hstop hscan hadvance,
      .inr ⟨_, rfl, hstanding, drop_after h.frames, rfl⟩⟩

/-! ## Runs -/

variable (t stop) in
/-- **The turns hand over what is delivered**, by induction on the lists of the index. -/
theorem Turning.drive_any (hplaced : List.Forall₂ (PlacedAt active) ids ranks) :
    ∀ {lists : List SourceList} {n : Nat} {r : Reading}, Serves ranks groups lists →
      Turning checked x ranks groups r.wire n lists r →
      ∃ (events : List Event) (failure : Except Error Unit), EventsDelivered t active ids events ∧
        ∀ {σ B : Type} (visitor : σ → Event → σ × ControlFlow B) (fuel : Nat) (c : σ),
          (framesOf lists).length < fuel →
          Library.drive (readStep checked x t active stop) visitor fuel c r =
            ending (failure.mapError Failure.error) (Library.visit visitor c events)
  | [], n, r, hserves, h => by
    refine ⟨closing r.current, .ok (), delivered_closing t active ids _,
      fun visitor fuel c hfuel => ?_⟩
    obtain ⟨fuel, rfl⟩ : ∃ fuel', fuel = fuel' + 1 := ⟨fuel - 1, by omega⟩
    exact drive_stop visitor h.done fuel c
  | list :: lists, n, r, hserves, h => by
    have hframes := length_framesOf_cons list lists
    cases htouches : touches groups list with
    | false =>
      obtain ⟨events, failure, hevents, hdrive⟩ :=
        Turning.drive_any hplaced hserves.tail (h.quiet (quiet_of_touches htouches))
      exact ⟨events, failure, hevents, fun visitor fuel c hfuel =>
        hdrive visitor fuel c (by omega)⟩
    | true =>
      obtain ⟨e, he, -⟩ := exists_of_touches htouches
      rw [List.isEmpty_eq_false_iff.2 (List.ne_nil_of_mem he), if_neg Bool.false_ne_true] at hframes
      obtain ⟨hpast, hturn⟩ := h.step_any stop hplaced hserves.ascend (exists_of_touches htouches)
      have hpositive : ∀ {fuel}, (framesOf (list :: lists)).length < fuel →
          ∃ fuel', fuel = fuel' + 1 ∧ (framesOf lists).length < fuel' := fun {fuel} hfuel =>
        ⟨fuel - 1, by omega, by omega⟩
      by_cases hstop : stop < list.time
      · refine ⟨closing r.current, .ok (), delivered_closing t active ids _,
          fun visitor fuel c hfuel => ?_⟩
        obtain ⟨fuel, rfl, -⟩ := hpositive hfuel
        exact drive_stop visitor (hpast hstop) fuel c
      · obtain ⟨emitted, outcome, hemitted, hstep, ⟨e, rfl⟩ | ⟨r', rfl, h'⟩⟩ :=
          hturn (Nat.le_of_not_lt hstop)
        · refine ⟨emitted, .error e, hemitted, fun visitor fuel c hfuel => ?_⟩
          obtain ⟨fuel, rfl, -⟩ := hpositive hfuel
          exact drive_stop visitor hstep fuel c
        · obtain ⟨events, failure, hevents, hdrive⟩ := Turning.drive_any hplaced hserves.tail h'
          refine ⟨_, failure, hemitted.append hevents, fun visitor fuel c hfuel => ?_⟩
          obtain ⟨fuel, rfl, hless⟩ := hpositive hfuel
          exact drive_next hstep (fun c => hdrive visitor fuel c hless) c

/-- What an indexed read returns whose visitor went through its events: the break of the visitor, or
how the read ended. -/
def tried {σ B : Type} (failure : Except Error Unit) :
    σ × ControlFlow B → σ × Except Failure (Option (ControlFlow B))
  | (c, .break value) => (c, .ok (some (.break value)))
  | (c, .continue) => (c, (failure.mapError Failure.error).map fun _ => some .continue)

/-- **An indexed read of any input** hands over events that are delivered, and ends well or as the
input fails. One that is not granted hands over nothing, and is left to the walk. -/
theorem read_any {w : Wire} (h : Records checked active.length lists x)
    (hactive : active.Pairwise fun x y => x.1 < y.1) (hids : ids.Pairwise (· < ·))
    (hlisted : ∀ id ∈ ids, ∃ type, (id, type) ∈ active) (t : Types) (stop : Nat)
    (reserved : Nat → Bool) :
    (Granted reserved ids → ∃ events failure, EventsDelivered t active ids events ∧
      ∀ {σ B : Type} (visitor : σ → Event → σ × ControlFlow B) (c : σ),
        read checked x reserved t active ids stop visitor c w =
          tried failure (Library.visit visitor c events)) ∧
    (¬ Granted reserved ids →
      ∀ {σ B : Type} (visitor : σ → Event → σ × ControlFlow B) (c : σ),
        read checked x reserved t active ids stop visitor c w = (c, .ok none)) := by
  have hplace : w.place = w.place := rfl
  obtain ⟨ranks, groups, hplaced, hserves, hquery⟩ := query_stands h hactive hids hlisted hplace
  refine ⟨fun hgranted => ?_, fun hnot => ?_⟩
  · obtain ⟨r, hstart, hturning, -⟩ := (hquery reserved).1 hgranted
    obtain ⟨events, failure, hevents, hdrive⟩ := Turning.drive_any t stop hplaced hserves
      (r := r) { hturning with place := rfl }
    have hfuel : (framesOf lists).length < x.frames.items.length + 1 := by
      rw [h.frames]
      exact Nat.lt_succ_self _
    refine ⟨events, failure, hevents, fun visitor c => ?_⟩
    unfold read
    rw [hstart]
    dsimp only
    rw [hdrive visitor _ c hfuel]
    rcases Library.visit visitor c events with ⟨c', _ | value⟩
    · cases failure <;> rfl
    · rfl
  · intro σ B visitor c
    unfold read
    rw [(hquery reserved).2 hnot]

end

end Index

end Ondas.Ghw
