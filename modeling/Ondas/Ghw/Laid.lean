import Ondas.Ghw.Protocol
import Ondas.Ghw.Recorded

/-!
# Lists as they lie in the body

An index keeps places of the body, so what is read through it depends on how the records of a list
lie there. `Laid` is a list from an offset on: the payloads of a snapshot follow one another, those
of a cycle list have the distance of the ranks before them and a zero after the last one. Whatever
wire stands at such a place reads the record that the walk has read.

A walk that is accepted hands over the lists of the body, one after the other, with a tick after the
last one of each time (`spelled`). With an earlier end it hands over those up to the end
(`walk_laid`).
-/

namespace Ondas.Ghw

open Library Wire

/-! ## Places -/

/-- The input at an offset, with nothing buffered. -/
def Wire.place (w : Wire) (offset : Nat) : Wire := { w.plain with offset := offset }

section
variable {α : Type} {x : Read α} {a : α} {w w' : Wire} {k n : Nat}

theorem Wire.Same.place_eq (h : Wire.Same w w') : w.place = w'.place := by
  have hplace := congrArg Wire.place h
  exact hplace

@[simp] theorem Wire.place_rest (w : Wire) (offset : Nat) :
    (w.place offset).rest = w.bytes.drop offset := rfl

/-- A wire stands at its own offset. -/
theorem Wire.same_place (w : Wire) : Wire.Same w (w.place w.offset) := rfl

theorem Wire.Same.offset_eq (h : Wire.Same w w') : w.offset = w'.offset := by
  have hoffset := congrArg Wire.offset h
  exact hoffset

/-- A read that succeeds yields its value, and stays inside the input. -/
theorem Wire.Moves.yields (hx : Moves k x) (h : x w = (.ok a, w')) :
    ∃ n, Yields x w a n ∧ Wire.Same w' (w.skip n) ∧ k ≤ n ∧ n ≤ w.rest.length := by
  obtain ⟨n, hn, hsame, hk⟩ := hx w
  rw [h] at hsame hk
  exact ⟨n, ⟨w', h, hsame⟩, hsame, hk a rfl, hn⟩

/-- The bytes that a read takes are there. -/
theorem Wire.Moves.taken (hx : Moves k x) (h : Yields x w a n) : k ≤ n ∧ n ≤ w.rest.length := by
  obtain ⟨w', hrun, hsame⟩ := h
  obtain ⟨m, ⟨u, hrun', hsame'⟩, -, hk, hm⟩ := hx.yields hrun
  obtain ⟨-, rfl⟩ := Yields.unique ⟨w', hrun, hsame⟩ ⟨u, hrun', hsame'⟩
  exact ⟨hk, hm⟩

end

/-! ## Lists -/

/-- The records of a list of a time from an offset and a rank on, and where the list ends. -/
inductive Laid (t : Types) (active : Active) (wire : Wire) (time : Nat) :
    Bool → Nat → Nat → List ScalarEvent → Nat → Prop
  | filled {offset rank : Nat} : active[rank]? = none →
      Laid t active wire time false offset rank [] offset
  | scalar {offset rank id type n ends : Nat} {value : Scalar} {rest : List ScalarEvent} :
      active[rank]? = some (id, type) →
      Yields (Ghw.scalar t type) (wire.place offset) value n →
      Laid t active wire time false (offset + n) (rank + 1) rest ends →
      Laid t active wire time false offset rank
        (⟨id, rank, time, offset, value, false, noRoute⟩ :: rest) ends
  | closed {offset rank n : Nat} : Yields uleb (wire.place offset) 0 n →
      Laid t active wire time true offset rank [] (offset + n)
  | record {offset rank delta id type m n ends : Nat} {value : Scalar} {rest : List ScalarEvent} :
      Yields uleb (wire.place offset) delta m → delta ≠ 0 → rank + delta ≤ Types.usizeMax →
      active[rank + delta - 1]? = some (id, type) →
      Yields (Ghw.scalar t type) (wire.place (offset + m)) value n →
      Laid t active wire time true (offset + m + n) (rank + delta) rest ends →
      Laid t active wire time true offset rank
        (⟨id, rank + delta - 1, time, offset + m, value, true, noRoute⟩ :: rest) ends

/-- Lists that lie one after the other from an offset on, with times that do not go back from the
current one. -/
inductive LaidOut (t : Types) (active : Active) (wire : Wire) :
    Nat → Option Nat → List Index.SourceList → Prop
  | nil {offset : Nat} {current : Option Nat} : LaidOut t active wire offset current []
  | cons {offset start ends : Nat} {current : Option Nat} {list : Index.SourceList}
      {lists : List Index.SourceList} :
      offset ≤ start → (∀ previous ∈ current, previous ≤ list.time) →
      Laid t active wire list.time list.cyclic start 0 list.records ends →
      LaidOut t active wire ends (some list.time) lists →
      LaidOut t active wire offset current (list :: lists)

/-- The tick of a time that another one follows. -/
def passed (current : Option Nat) (time : Nat) : List Event :=
  (current.filter fun previous => previous ≠ time).toList.map .tick

/-- The events of lists after a time that is not complete. -/
def spelled : Option Nat → List Index.SourceList → List Event
  | current, [] => current.toList.map .tick
  | current, list :: lists =>
      passed current list.time ++ (list.events ++ spelled (some list.time) lists)

section
variable {t : Types} {active : Active} {wire wire' : Wire} {time offset rank ends : Nat}
  {cyclic : Bool}
  {records : List ScalarEvent} {lists : List Index.SourceList} {current : Option Nat}

/-- Only the places count. -/
theorem Laid.same (h : Laid t active wire time cyclic offset rank records ends)
    (hplace : wire.place = wire'.place) :
    Laid t active wire' time cyclic offset rank records ends := by
  induction h with
  | filled hnone => exact .filled hnone
  | scalar hactive hvalue _ ih => exact .scalar hactive (hplace ▸ hvalue) ih
  | closed hzero => exact .closed (hplace ▸ hzero)
  | record hdelta hpos hfits hactive hvalue _ ih =>
    exact .record (hplace ▸ hdelta) hpos hfits hactive (hplace ▸ hvalue) ih

/-- Where records lie depends on the bytes of the input, not on what is buffered. -/
theorem LaidOut.same (h : LaidOut t active wire offset current lists)
    (hplace : wire.place = wire'.place) :
    LaidOut t active wire' offset current lists := by
  induction h with
  | nil => exact .nil
  | cons hle htimes hlaid _ ih => exact .cons hle htimes (hlaid.same hplace) ih

/-- Lists lie from an earlier offset on, too. -/
theorem LaidOut.mono {offset' : Nat} (h : LaidOut t active wire offset current lists)
    (hle : offset' ≤ offset) : LaidOut t active wire offset' current lists := by
  cases h with
  | nil => exact .nil
  | cons hstart htimes hlaid hrest => exact .cons (hle.trans hstart) htimes hlaid hrest

/-- What the records of a list are: of its time and kind, at ranks of the active table from the rank
on, and inside the bytes that the list takes. -/
structure Lies (active : Active) (wire : Wire) (time : Nat) (cyclic : Bool) (offset rank ends : Nat)
    (event : ScalarEvent) : Prop where
  time : event.time = time
  cyclic : event.cyclic = cyclic
  from_rank : rank ≤ event.rank
  active : event.rank < active.length
  from_offset : offset ≤ event.offset
  before : event.offset < ends
  inside : event.offset < wire.bytes.length

/-- A list ends behind its start. -/
theorem Laid.ends_le (h : Laid t active wire time cyclic offset rank records ends) :
    offset ≤ ends := by
  induction h with
  | filled => exact Nat.le_refl _
  | scalar _ _ _ ih => exact (Nat.le_add_right _ _).trans ih
  | closed => exact Nat.le_add_right _ _
  | record _ _ _ _ _ _ ih => omega

/-- A payload has a byte inside the input. -/
theorem payload_inside {type n : Nat} {value : Scalar}
    (h : Yields (scalar t type) (wire.place offset) value n) :
    0 < n ∧ offset < wire.bytes.length := by
  obtain ⟨hpos, hle⟩ := (moves_scalar t type).taken h
  rw [Wire.place_rest, List.length_drop] at hle
  exact ⟨hpos, by omega⟩

/-- Each record of a list lies inside the bytes of the list, at a rank of the active table. -/
theorem Laid.lies (h : Laid t active wire time cyclic offset rank records ends) :
    ∀ event ∈ records, Lies active wire time cyclic offset rank ends event := by
  induction h with
  | filled => exact fun event hevent => nomatch hevent
  | closed => exact fun event hevent => nomatch hevent
  | scalar hactive hvalue hrest ih =>
    obtain ⟨hpos, hinside⟩ := payload_inside hvalue
    have hends := hrest.ends_le
    intro event hevent
    rcases List.mem_cons.1 hevent with rfl | hevent
    · exact ⟨rfl, rfl, Nat.le_refl _, (List.getElem?_eq_some_iff.1 hactive).1, Nat.le_refl _,
        Nat.lt_of_lt_of_le (Nat.lt_add_of_pos_right hpos) hends, hinside⟩
    · have hlies := ih event hevent
      exact ⟨hlies.time, hlies.cyclic, (Nat.le_succ _).trans hlies.from_rank, hlies.active,
        (Nat.le_add_right _ _).trans hlies.from_offset, hlies.before, hlies.inside⟩
  | record _ hdelta _ hactive hvalue hrest ih =>
    obtain ⟨hpos, hinside⟩ := payload_inside hvalue
    have hends := hrest.ends_le
    intro event hevent
    rcases List.mem_cons.1 hevent with rfl | hevent
    · refine ⟨rfl, rfl, ?_, (List.getElem?_eq_some_iff.1 hactive).1, Nat.le_add_right _ _,
        Nat.lt_of_lt_of_le (Nat.lt_add_of_pos_right hpos) hends, hinside⟩
      show _ ≤ _ + _ - 1
      omega
    · have hlies := ih event hevent
      have hrank := hlies.from_rank
      have hoffset := hlies.from_offset
      exact ⟨hlies.time, hlies.cyclic, by omega, hlies.active, by omega, hlies.before, hlies.inside⟩

/-- The ranks of a list ascend, and its offsets do not descend. -/
theorem Laid.ascends (h : Laid t active wire time cyclic offset rank records ends) :
    records.Pairwise fun a b => a.rank < b.rank ∧ a.offset ≤ b.offset := by
  induction h with
  | filled => exact .nil
  | closed => exact .nil
  | scalar _ _ hrest ih =>
    refine List.pairwise_cons.2 ⟨fun event hevent => ?_, ih⟩
    have hlies := hrest.lies event hevent
    exact ⟨hlies.from_rank, (Nat.le_add_right _ _).trans hlies.from_offset⟩
  | record _ _ _ _ _ hrest ih =>
    refine List.pairwise_cons.2 ⟨fun event hevent => ?_, ih⟩
    have hrank := (hrest.lies event hevent).from_rank
    have hoffset := (hrest.lies event hevent).from_offset
    constructor
    · show _ + _ - 1 < event.rank
      omega
    · show _ + _ ≤ event.offset
      omega

/-- Each list lies somewhere. -/
theorem LaidOut.laid (h : LaidOut t active wire offset current lists) : ∀ list ∈ lists,
    ∃ start ends,
    offset ≤ start ∧ Laid t active wire list.time list.cyclic start 0 list.records ends := by
  induction h with
  | nil => exact fun list hlist => nomatch hlist
  | cons hle _ hlaid _ ih =>
    have hends := hlaid.ends_le
    intro list hlist
    rcases List.mem_cons.1 hlist with rfl | hlist
    · exact ⟨_, _, hle, hlaid⟩
    · obtain ⟨start, ends, hstart, hlaid'⟩ := ih list hlist
      exact ⟨start, ends, (hle.trans hends).trans hstart, hlaid'⟩

/-- No list is before the current time. -/
theorem LaidOut.le_time (h : LaidOut t active wire offset current lists) :
    ∀ previous ∈ current, ∀ list ∈ lists, previous ≤ list.time := by
  induction h with
  | nil => exact fun _ _ list hlist => nomatch hlist
  | cons _ htimes _ _ ih =>
    intro previous hprevious list hlist
    rcases List.mem_cons.1 hlist with rfl | hlist
    · exact htimes previous hprevious
    · exact (htimes previous hprevious).trans (ih _ rfl list hlist)

/-- Times do not go back. -/
theorem LaidOut.times (h : LaidOut t active wire offset current lists) :
    lists.Pairwise fun a b => a.time ≤ b.time := by
  induction h with
  | nil => exact .nil
  | cons _ _ _ hrest ih =>
    exact List.pairwise_cons.2 ⟨fun list hlist => hrest.le_time _ rfl list hlist, ih⟩

/-- Lists of a body whose offsets are words are in order. -/
theorem LaidOut.inOrder (h : LaidOut t active wire offset current lists)
    (hsize : wire.bytes.length < 2 ^ 64) : Index.InOrder active.length lists where
  kinds list hlist event hevent := by
    obtain ⟨start, ends, -, hlaid⟩ := h.laid list hlist
    exact ⟨(hlaid.lies event hevent).time, (hlaid.lies event hevent).cyclic⟩
  ranks list hlist := by
    obtain ⟨start, ends, -, hlaid⟩ := h.laid list hlist
    exact hlaid.ascends.imp And.left
  active list hlist event hevent := by
    obtain ⟨start, ends, -, hlaid⟩ := h.laid list hlist
    exact (hlaid.lies event hevent).active
  words list hlist event hevent := by
    obtain ⟨start, ends, -, hlaid⟩ := h.laid list hlist
    exact (hlaid.lies event hevent).inside.trans hsize
  offsets := by
    induction h with
    | nil => exact .nil
    | cons _ _ hlaid hrest ih =>
      rw [List.flatMap_cons]
      refine List.pairwise_append.2 ⟨hlaid.ascends.imp And.right, ih, fun a ha b hb => ?_⟩
      obtain ⟨list, hlist, hb⟩ := List.mem_flatMap.1 hb
      obtain ⟨start, ends, hstart, hlaid'⟩ := hrest.laid list hlist
      exact ((hlaid.lies a ha).before.le.trans hstart).trans (hlaid'.lies b hb).from_offset

end

/-! ## Steps -/

/-- The next state, if there is one, stands further on in the input. -/
def Skips (w : Walk) (p : List Emission × Outcome Walk Walked) : Prop :=
  ∀ v, p.2 = .next v → ∃ n, Wire.Same v.wire (w.wire.skip n)

section
variable {w : Walk}

theorem skips_stop (out : List Emission) (r : Walked) : Skips w (out, .stop r) := by
  intro v h
  cases h

/-- A step that goes on behind some bytes has skipped them. -/
theorem skips_next {v : Walk} {n : Nat} (out : List Emission)
    (h : Wire.Same v.wire (w.wire.skip n)) :
    Skips w (out, .next v) := by
  intro u hu
  cases hu
  exact ⟨n, h⟩

/-- A read before a step skips what it moves over. -/
theorem Walk.after_skips {α : Type} {x : Read α} {k m : Nat} (hx : Wire.Moves k x) {u : Walk}
    (hu : Wire.Same u.wire (w.wire.skip m)) {next : α → Walk → List Emission × Outcome Walk Walked}
    (hnext : ∀ a v n, Wire.Same v.wire (w.wire.skip n) → Skips w (next a v)) :
    Skips w (u.after x next) := by
  unfold Walk.after
  rcases hrun : x u.wire with ⟨e | a, wire⟩
  · exact skips_stop _ _
  · obtain ⟨n, -, hsame, -⟩ := hx.yields hrun
    have hskip := hu.skip n
    rw [skip_skip] at hskip
    exact hnext a _ (m + n) (hsame.trans hskip)

/-- Entering a snapshot or a cycle reads nothing more. -/
theorem Walk.enter_skips {u : Walk} {n : Nat} (hu : Wire.Same u.wire (w.wire.skip n)) (stop : Nat)
    (time : Int) (phase : Phase) : Skips w (u.enter stop time phase) := by
  unfold Walk.enter
  cases u.clock.enter time stop with
  | refused => exact skips_stop _ _
  | ended ticks => exact skips_stop _ _
  | entered ticks clock => exact skips_next _ hu

/-- No step goes back in the input. -/
theorem walkStep_skips (b : Body) (w : Walk) : Skips w (walkStep b false w) := by
  have hstart : Wire.Same w.wire (w.wire.skip 0) := rfl
  unfold walkStep
  cases w.phase with
  | «section» =>
    dsimp only
    unfold Walk.after
    rcases hrun : readSection w.footer w.wire with ⟨e | _ | kind, wire⟩
    · exact skips_stop _ _
    · exact skips_stop _ _
    obtain ⟨n, -, -, hsame⟩ := readSection_moves hrun
    cases kind with
    | snapshot =>
      exact Walk.after_skips (u := { w with wire }) (moves_zeros.zero.first fun _ => moves_i64.zero)
        hsame
        fun time v n hv => Walk.enter_skips hv _ _ _
    | cycle =>
      exact Walk.after_skips (u := { w with wire }) moves_i64 hsame fun time v n hv =>
        Walk.enter_skips hv _ _ _
    | directory => exact skips_next _ hsame
    | tailer => exact skips_next _ hsame
  | snapshot time rank =>
    dsimp only
    cases b.active[rank]? with
    | none => exact Walk.after_skips (moves_marker _) hstart fun _ v n hv => skips_next _ hv
    | some entry => exact Walk.after_skips (moves_scalar _ _) hstart fun _ v n hv => skips_next _ hv
  | cycle time rank =>
    refine Walk.after_skips (moves_cycleRecord _ _ _) hstart fun record v n hv => ?_
    cases record with
    | none => exact skips_next _ hv
    | some record => exact skips_next _ hv
  | increment time =>
    refine Walk.after_skips (moves_sleb 64) hstart fun delta v n hv => ?_
    split
    · exact Walk.after_skips (moves_marker _) hv fun _ u n hu => skips_next _ hu
    split
    · exact skips_stop _ _
    split
    · exact skips_stop _ _
    · exact Walk.enter_skips hv _ _ _
  | directory => exact Walk.after_skips moves_readDirectory hstart fun _ v n hv => skips_next _ hv
  | tailer => exact Walk.after_skips moves_readTailer hstart fun _ v n hv => skips_stop _ _

variable {b : Body} {time : Int} {rank : Nat} {out : List Emission} {v : Walk}

/-- What follows a read that succeeds. -/
theorem Walk.after_next {α : Type} {x : Read α} {k : Nat} (hx : Wire.Moves k x)
    {next : α → Walk → List Emission × Outcome Walk Walked} (h : w.after x next = (out, .next v)) :
    ∃ a wire n, Yields x w.wire a n ∧ Wire.Same wire (w.wire.skip n) ∧
      next a { w with wire } = (out, .next v) := by
  unfold Walk.after at h
  rcases hrun : x w.wire with ⟨e | a, wire⟩
  · rw [hrun] at h
    cases h
  · rw [hrun] at h
    obtain ⟨n, hyields, hsame, -⟩ := hx.yields hrun
    exact ⟨a, wire, n, hyields, hsame, h⟩

/-- A step in a snapshot reads the next payload, or the end of the list. -/
theorem snapshot_next (hphase : w.phase = .snapshot time rank)
    (h : walkStep b false w = (out, .next v)) :
    (∃ id type value n, b.active[rank]? = some (id, type) ∧
      Yields (scalar b.types type) w.wire value n ∧
      Wire.Same v.wire (w.wire.skip n) ∧ v.phase = .snapshot time (rank + 1) ∧
      told out = [.scalar ⟨id, rank, time.toNat, w.wire.offset, value, false, noRoute⟩]) ∨
    b.active[rank]? = none ∧ v.phase = .section ∧ told out = [.listEnd time.toNat] := by
  unfold walkStep at h
  rw [hphase] at h
  dsimp only at h
  cases hactive : b.active[rank]? with
  | none =>
    rw [hactive] at h
    obtain ⟨_, wire, n, -, -, hnext⟩ := Walk.after_next (moves_marker _) h
    cases hnext
    exact .inr ⟨rfl, rfl, rfl⟩
  | some entry =>
    rw [hactive] at h
    obtain ⟨value, wire, n, hvalue, hsame, hnext⟩ := Walk.after_next (moves_scalar _ _) h
    cases hnext
    exact .inl ⟨_, _, value, n, rfl, hvalue, hsame, rfl, rfl⟩

/-- A record of a cycle list is a distance and a payload. -/
theorem cycleRecord_yields {t : Types} {active : Active} {wire : Wire} {n : Nat}
    {record : Option (Nat × Nat × Nat × Scalar)}
    (h : Yields (cycleRecord t active rank) wire record n) :
    Yields uleb wire 0 n ∧ record = none ∨
    ∃ delta id type m k value, Yields uleb wire delta m ∧ delta ≠ 0 ∧
      rank + delta ≤ Types.usizeMax ∧
      active[rank + delta - 1]? = some (id, type) ∧ Yields (scalar t type) (wire.skip m) value k ∧
      n = m + k ∧ record = some (rank + delta, id, wire.offset + m, value) := by
  obtain ⟨last, hrun, hlast⟩ := h
  obtain ⟨delta, v, hdelta, hrest⟩ := Decoder.bind_eq_ok.1 hrun
  obtain ⟨m, hyields, hsame, -⟩ := moves_uleb.yields hdelta
  have hoffset := hlast.offset_eq
  split at hrest
  · next hzero =>
    cases hrest
    subst hzero
    obtain ⟨u, hrun', hsame'⟩ := hyields
    cases hrun'.symm.trans hdelta
    exact .inl ⟨⟨_, hdelta, hlast⟩, rfl⟩
  · next hpos =>
    obtain ⟨_, u, hensure, hrest⟩ := Decoder.bind_eq_ok.1 hrest
    unfold Wire.ensure at hensure
    split at hensure
    swap
    · cases hensure
    next hfits =>
    cases hensure
    cases hactive : active[rank + delta - 1]? with
    | none => rw [hactive] at hrest; cases hrest
    | some entry =>
      obtain ⟨id, type⟩ := entry
      rw [hactive] at hrest
      obtain ⟨offset, s, hlook, hrest⟩ := Decoder.bind_eq_ok.1 hrest
      cases hlook
      obtain ⟨value, s', hvalue, hpure⟩ := Decoder.bind_eq_ok.1 hrest
      cases hpure
      obtain ⟨k, hyields', hsame', -⟩ := (moves_scalar t type).yields hvalue
      have hskip := hsame'.trans (hsame.skip k)
      rw [skip_skip] at hskip
      have hlength : wire.offset + n = wire.offset + (m + k) := hoffset.symm.trans hskip.offset_eq
      exact .inr ⟨delta, id, type, m, k, value, hyields, hpos, of_decide_eq_true hfits, hactive,
        hyields'.same (unbuffered_scalar t type) hsame.symm, Nat.add_left_cancel hlength,
        congrArg some (congrArg _ (congrArg _ (congrArg (·, value) hsame.offset_eq)))⟩

/-- A step in a cycle list reads the next record, or the end of the list. -/
theorem cycle_next (hphase : w.phase = .cycle time rank) (h : walkStep b false w = (out, .next v)) :
    (∃ delta id type m n value, Yields uleb w.wire delta m ∧ delta ≠ 0 ∧
      rank + delta ≤ Types.usizeMax ∧ b.active[rank + delta - 1]? = some (id, type) ∧
      Yields (scalar b.types type) (w.wire.skip m) value n ∧
      Wire.Same v.wire (w.wire.skip (m + n)) ∧ v.phase = .cycle time (rank + delta) ∧
      told out =
        [.scalar ⟨id, rank + delta - 1, time.toNat, w.wire.offset + m, value, true, noRoute⟩]) ∨
    ∃ n, Yields uleb w.wire 0 n ∧ Wire.Same v.wire (w.wire.skip n) ∧ v.phase = .increment time ∧
      told out = [.listEnd time.toNat] := by
  unfold walkStep at h
  rw [hphase] at h
  have hcycle : cycleStep b w time rank = (out, .next v) := h
  obtain ⟨record, wire, n, hrecord, hsame, hnext⟩ :=
    Walk.after_next (moves_cycleRecord _ _ _) hcycle
  rcases cycleRecord_yields hrecord with ⟨hzero, rfl⟩ |
    ⟨delta, id, type, m, k, value, hdelta, hpos, hfits, hactive, hvalue, rfl, rfl⟩
  · cases hnext
    exact .inr ⟨n, hzero, hsame, rfl, rfl⟩
  · cases hnext
    exact .inl ⟨delta, id, type, m, k, value, hdelta, hpos, hfits, hactive, hvalue, hsame, rfl, rfl⟩

/-- Where a step depends on the end of the walk: it enters a time. -/
def EntersAt (w : Walk) (step : Nat → List Emission × Outcome Walk Walked) : Prop :=
  ∃ (u : Walk) (n : Nat) (time : Int) (phase : Phase), u.clock = w.clock ∧ u.footer = w.footer ∧
    Wire.Same u.wire (w.wire.skip n) ∧ (phase = .snapshot time 0 ∨ phase = .cycle time 0) ∧
    w.pace.Enters ∧ ∀ stop, step stop = u.enter stop time phase

/-- A step that enters no time does not depend on the end of the walk. -/
theorem walkStep_stop (b : Body) (w : Walk) :
    (∀ stop, walkStep { b with stop } false w = walkStep b false w) ∨
      EntersAt w fun stop => walkStep { b with stop } false w := by
  obtain ⟨wire, clock, footer, phase⟩ := w
  cases phase with
  | snapshot time rank => exact .inl fun stop => rfl
  | cycle time rank => exact .inl fun stop => rfl
  | directory => exact .inl fun stop => rfl
  | tailer => exact .inl fun stop => rfl
  | «section» =>
    rcases hrun : readSection footer wire with ⟨e | _ | kind, wire'⟩
    · refine .inl fun stop => ?_
      simp only [walkStep, Walk.after, hrun]
    · refine .inl fun stop => ?_
      simp only [walkStep, Walk.after, hrun]
    obtain ⟨n, -, -, hsame⟩ := readSection_moves hrun
    have henters : kind ≠ .tailer → Pace.Enters ⟨clock, footer, .section⟩ := fun hkind =>
      .inl ⟨rfl, readSection_footer hrun hkind⟩
    cases kind with
    | directory => refine .inl fun stop => ?_; simp only [walkStep, Walk.after, hrun]
    | tailer => refine .inl fun stop => ?_; simp only [walkStep, Walk.after, hrun]
    | snapshot =>
      rcases htime : (do zeros; i64 : Read Int) wire' with ⟨e | time, wire''⟩
      · refine .inl fun stop => ?_
        simp only [walkStep, Walk.after, hrun, htime]
      · obtain ⟨m, -, hsame', -⟩ := (moves_zeros.zero.first fun _ => moves_i64.zero).yields htime
        have hskip := hsame'.trans (hsame.skip m)
        rw [skip_skip] at hskip
        refine .inr ⟨⟨wire'', clock, footer, .section⟩, _, time, _, rfl, rfl, hskip, .inl rfl,
          henters (by decide), fun stop => ?_⟩
        simp only [walkStep, Walk.after, hrun, htime]
    | cycle =>
      rcases htime : i64 wire' with ⟨e | time, wire''⟩
      · refine .inl fun stop => ?_
        simp only [walkStep, Walk.after, hrun, htime]
      · obtain ⟨m, -, hsame', -⟩ := moves_i64.yields htime
        have hskip := hsame'.trans (hsame.skip m)
        rw [skip_skip] at hskip
        refine .inr ⟨⟨wire'', clock, footer, .section⟩, _, time, _, rfl, rfl, hskip, .inr rfl,
          henters (by decide), fun stop => ?_⟩
        simp only [walkStep, Walk.after, hrun, htime]
  | increment time =>
    rcases hrun : sleb 64 wire with ⟨e | delta, wire'⟩
    · refine .inl fun stop => ?_
      simp only [walkStep, Walk.after, hrun]
    obtain ⟨n, -, hsame, -⟩ := (moves_sleb 64).yields hrun
    by_cases hlast : delta = -1
    · refine .inl fun stop => ?_
      simp only [walkStep, Walk.after, hrun, if_pos hlast]
    by_cases hback : delta < 0
    · refine .inl fun stop => ?_
      simp only [walkStep, Walk.after, hrun, if_neg hlast, if_pos hback]
    by_cases hover : i64Max < time + delta
    · refine .inl fun stop => ?_
      simp only [walkStep, Walk.after, hrun, if_neg hlast, if_neg hback, if_pos hover]
    · refine .inr ⟨⟨wire', clock, footer, .increment time⟩, n, time + delta,
        .cycle (time + delta) 0,
        rfl, rfl, hsame, .inr rfl, .inr ⟨time, rfl⟩, fun stop => ?_⟩
      simp only [walkStep, Walk.after, hrun, if_neg hlast, if_neg hback, if_neg hover]

end

/-! ## Paces -/

/-- Where an accepted walk may stand: the current time is inside the end, a list is one of it, and
only the footer sections are read after a footer. -/
structure Pace.Fits (stop : Nat) (p : Pace) : Prop where
  current : ∀ t ∈ p.clock.current, 0 ≤ t ∧ t.toNat ≤ stop
  listed : ∀ time, p.phase = .increment time ∨ (∃ rank, p.phase = .snapshot time rank) ∨
    (∃ rank, p.phase = .cycle time rank) → p.footer = false ∧ p.clock.current = some time
  footer : p.phase = .directory ∨ p.phase = .tailer → p.footer = true

section
variable {b : Body} {p q : Pace} {events : List Event} {stop : Nat}

/-- The tick that is completed is the current one. -/
theorem mem_completed {clock : Clock} {e : Event} (h : e ∈ clock.completed.map Event.tick) :
    ∃ t ∈ clock.current, e.time = t.toNat := by
  obtain ⟨tick, htick, rfl⟩ := List.mem_map.1 h
  obtain ⟨t, ht, rfl⟩ := Option.map_eq_some_iff.1 (Option.mem_toList.1 htick)
  exact ⟨t, ht, rfl⟩

/-- The ticks on the way into a time are of the current one. -/
theorem entered_times {clock clock' : Clock} {time : Int} {ticks : List Nat}
    (h : clock.enter time stop = .entered ticks clock')
    {e : Event} (he : e ∈ ticks.map Event.tick) :
    ∃ t ∈ clock.current, e.time = t.toNat := by
  obtain ⟨tick, htick, rfl⟩ := List.mem_map.1 he
  obtain ⟨-, -, -, hcases⟩ := Clock.enter_entered h
  rcases hcases with ⟨-, rfl⟩ | ⟨-, rfl⟩ | ⟨previous, hprevious, -, rfl⟩
  · cases htick
  · cases htick
  · rw [List.mem_singleton.1 htick]
    exact ⟨previous, hprevious, rfl⟩

/-- A move tells of the current time. -/
theorem Advance.told_times (h : Advance b p events q) (hfits : p.Fits b.stop) :
    ∀ e ∈ events, ∃ t ∈ p.clock.current, e.time = t.toNat := by
  have hone : ∀ {time : Int} {e : Event}, p.clock.current = some time → e.time = time.toNat →
      ∀ e' ∈ [e], ∃ t ∈ p.clock.current, e'.time = t.toNat := by
    intro time e hcurrent htime e' he'
    rw [List.mem_singleton.1 he']
    exact ⟨time, hcurrent, htime⟩
  cases h with
  | enter _ henter _ => exact fun e he => entered_times henter he
  | scalar htime _ => exact hone (hfits.listed _ (.inr (.inl ⟨_, rfl⟩))).2 htime
  | record htime _ _ => exact hone (hfits.listed _ (.inr (.inr ⟨_, rfl⟩))).2 htime
  | close => exact hone (hfits.listed _ (.inr (.inl ⟨_, rfl⟩))).2 rfl
  | pause => exact hone (hfits.listed _ (.inr (.inr ⟨_, rfl⟩))).2 rfl
  | leave => exact fun e he => by cases he
  | footer =>
    intro e he
    split at he
    · cases he
    · exact mem_completed he
  | entries => exact fun e he => by cases he

/-- What ends an accepted walk tells of the current time. -/
theorem Halt.told_times {span : Option TimeSpan} (h : Halt b p events (.ok span))
    (hfits : p.Fits b.stop) :
    ∀ e ∈ events, ∃ t ∈ p.clock.current, e.time = t.toNat := by
  cases h with
  | @past _ time ticks _ henter =>
    intro e he
    obtain ⟨-, hstop, hcases⟩ := Clock.enter_ended henter
    rcases hcases with ⟨-, rfl⟩ | hsame | rfl
    · cases he
    · have hinside := (hfits.current time hsame).2
      omega
    · exact mem_completed he
  | eof =>
    intro e he
    split at he
    · cases he
    · exact mem_completed he
  | tailed => exact fun e he => by cases he

/-- Moves keep a walk where it may stand. -/
theorem Advance.fits (h : Advance b p events q) (hfits : p.Fits b.stop) : q.Fits b.stop := by
  have hcurrent := hfits.current
  cases h with
  | @enter _ time ticks clock phase henters henter hphase =>
    obtain ⟨hpos, hle, rfl, -⟩ := Clock.enter_entered henter
    have hfooter : p.footer = false := by
      rcases henters with ⟨-, hfooter⟩ | ⟨time', hincrement⟩
      · exact hfooter
      · exact (hfits.listed time' (.inl hincrement)).1
    refine ⟨fun t ht => ?_, fun time' htime' => ⟨hfooter, ?_⟩, fun hfoot => ?_⟩
    · cases ht
      exact ⟨hpos, hle⟩
    · rcases hphase with rfl | rfl
      · rcases htime' with h | ⟨_, h⟩ | ⟨_, h⟩ <;> cases h
        rfl
      · rcases htime' with h | ⟨_, h⟩ | ⟨_, h⟩ <;> cases h
        rfl
    · rcases hphase with rfl | rfl <;> rcases hfoot with h | h <;> cases h
  | scalar _ _ =>
    have hlisted := hfits.listed _ (.inr (.inl ⟨_, rfl⟩))
    refine ⟨hcurrent, fun time' htime' => ?_, fun hfoot => by rcases hfoot with h | h <;> cases h⟩
    rcases htime' with h | ⟨_, h⟩ | ⟨_, h⟩ <;> cases h
    exact hlisted
  | record _ _ _ =>
    have hlisted := hfits.listed _ (.inr (.inr ⟨_, rfl⟩))
    refine ⟨hcurrent, fun time' htime' => ?_, fun hfoot => by rcases hfoot with h | h <;> cases h⟩
    rcases htime' with h | ⟨_, h⟩ | ⟨_, h⟩ <;> cases h
    exact hlisted
  | pause =>
    have hlisted := hfits.listed _ (.inr (.inr ⟨_, rfl⟩))
    refine ⟨hcurrent, fun time' htime' => ?_, fun hfoot => by rcases hfoot with h | h <;> cases h⟩
    rcases htime' with h | ⟨_, h⟩ | ⟨_, h⟩ <;> cases h
    exact hlisted
  | close | leave | entries =>
    refine ⟨hcurrent, fun time' htime' => ?_, fun hfoot => by rcases hfoot with h | h <;> cases h⟩
    rcases htime' with h | ⟨_, h⟩ | ⟨_, h⟩ <;> cases h
  | footer hphase =>
    refine ⟨hcurrent, fun time' htime' => ?_, fun _ => rfl⟩
    rcases hphase with rfl | rfl <;> rcases htime' with h | ⟨_, h⟩ | ⟨_, h⟩ <;> cases h

/-- Inside a list nothing but the phase moves. -/
theorem Advance.of_list {clock : Clock} {footer : Bool} {phase : Phase} {time : Int} {rank : Nat}
    (hphase : phase = .snapshot time rank ∨ phase = .cycle time rank)
    (h : Advance b ⟨clock, footer, phase⟩ events q) : q.clock = clock ∧ q.footer = footer := by
  rcases hphase with rfl | rfl
  · cases h with
    | enter henters => rcases henters with ⟨h, -⟩ | ⟨_, h⟩ <;> cases h
    | scalar => exact ⟨rfl, rfl⟩
    | close => exact ⟨rfl, rfl⟩
  · cases h with
    | enter henters => rcases henters with ⟨h, -⟩ | ⟨_, h⟩ <;> cases h
    | record => exact ⟨rfl, rfl⟩
    | pause => exact ⟨rfl, rfl⟩

/-- A move that enters a time. -/
def EnterMove (b : Body) (clock : Clock) (events : List Event) (q : Pace) : Prop :=
  ∃ (time : Int) (ticks : List Nat) (clock' : Clock),
    clock.enter time b.stop = .entered ticks clock' ∧
    events = ticks.map .tick ∧ (q.phase = .snapshot time 0 ∨ q.phase = .cycle time 0)

/-- Between sections a time is entered, or a footer follows, which ends the current time. -/
theorem Advance.of_section {clock : Clock} {footer : Bool}
    (h : Advance b ⟨clock, footer, .section⟩ events q) :
    footer = false ∧ EnterMove b clock events q ∨
      (events = if footer then [] else clock.completed.map .tick) ∧ q.footer = true := by
  cases h with
  | enter henters henter hphase =>
    rcases henters with ⟨-, hfooter⟩ | ⟨_, h⟩
    · exact .inl ⟨hfooter, _, _, _, henter, rfl, hphase⟩
    · cases h
  | footer _ => exact .inr ⟨rfl, rfl⟩

/-- After a cycle list a time is entered, or the cycle is left. -/
theorem Advance.of_increment {clock : Clock} {footer : Bool} {time : Int}
    (h : Advance b ⟨clock, footer, .increment time⟩ events q) :
    EnterMove b clock events q ∨ events = [] ∧ q = ⟨clock, footer, .section⟩ := by
  cases h with
  | enter _ henter hphase => exact .inl ⟨_, _, _, henter, rfl, hphase⟩
  | leave => exact .inr ⟨rfl, rfl⟩

/-- The directory tells nothing. -/
theorem Advance.of_directory {clock : Clock} {footer : Bool}
    (h : Advance b ⟨clock, footer, .directory⟩ events q) :
    events = [] ∧ q = ⟨clock, footer, .section⟩ := by
  cases h with
  | enter henters => rcases henters with ⟨h, -⟩ | ⟨_, h⟩ <;> cases h
  | entries => exact ⟨rfl, rfl⟩

/-- Nothing follows the tailer. -/
theorem Advance.of_tailer {clock : Clock} {footer : Bool}
    (h : Advance b ⟨clock, footer, .tailer⟩ events q) : False := by
  cases h with
  | enter henters => rcases henters with ⟨h, -⟩ | ⟨_, h⟩ <;> cases h

end

/-! ## Runs -/

/-- What is left of an accepted body: the rest of a list, and the lists after it. -/
def ReadsList (b : Body) (w : Walk) (time : Int) (cyclic : Bool) (rank : Nat)
    (events : List Event) :
    Prop :=
  ∃ records ends lists,
    Laid b.types b.active w.wire time.toNat cyclic w.wire.offset rank records ends ∧
    LaidOut b.types b.active w.wire ends (some time.toNat) lists ∧
    events = records.map .scalar ++ .listEnd time.toNat :: spelled (some time.toNat) lists

/-- What the events are that an accepted walk hands over from a state on. -/
def Reads (b : Body) (w : Walk) (events : List Event) : Prop :=
  match w.phase with
  | .snapshot time rank => ReadsList b w time false rank events
  | .cycle time rank => ReadsList b w time true rank events
  | _ => if w.footer then events = [] else
    ∃ lists, LaidOut b.types b.active w.wire w.wire.offset (w.clock.current.map Int.toNat) lists ∧
      events = spelled (w.clock.current.map Int.toNat) lists

section
variable {b : Body} {w v : Walk} {time : Int} {rank : Nat} {cyclic : Bool} {events : List Event}

theorem Clock.completed_eq (clock : Clock) :
    clock.completed.map Event.tick = spelled (clock.current.map Int.toNat) [] := rfl

/-- The ticks on the way into a time are those of a time that it follows. -/
theorem enter_passed {clock clock' : Clock} {stop : Nat} {ticks : List Nat}
    (h : clock.enter time stop = .entered ticks clock') (hpos : ∀ t ∈ clock.current, 0 ≤ t) :
    ticks.map Event.tick = passed (clock.current.map Int.toNat) time.toNat ∧
      ∀ previous ∈ clock.current.map Int.toNat, previous ≤ time.toNat := by
  obtain ⟨-, -, -, hcases⟩ := Clock.enter_entered h
  unfold passed
  rcases hcases with ⟨hnone, rfl⟩ | ⟨hsame, rfl⟩ | ⟨previous, hprevious, hlt, rfl⟩
  · rw [hnone]
    exact ⟨rfl, fun previous h => by cases h⟩
  · rw [hsame]
    refine ⟨by simp, fun previous h => ?_⟩
    cases h
    exact Nat.le_refl _
  · have hzero := hpos previous hprevious
    have hne : previous.toNat ≠ time.toNat := by omega
    rw [hprevious]
    refine ⟨by simp [Option.filter, hne], fun previous' h => ?_⟩
    cases h
    omega

/-- Nothing is read behind a directory: the footer only allows a tail. -/
theorem Reads.of_footer (h : Reads b w events) (hfits : w.pace.Fits b.stop)
    (hfooter : w.footer = true) :
    events = [] := by
  have hlisted := hfits.listed
  obtain ⟨wire, clock, footer, phase⟩ := w
  obtain rfl : footer = true := hfooter
  cases phase with
  | snapshot time rank => cases (hlisted time (.inr (.inl ⟨rank, rfl⟩))).1
  | cycle time rank => cases (hlisted time (.inr (.inr ⟨rank, rfl⟩))).1
  | «section» => exact h
  | increment time => exact h
  | directory => exact h
  | tailer => exact h

/-- The rest of a list begins with a payload. -/
theorem ReadsList.scalar {id type n : Nat} {value : Scalar}
    (hactive : b.active[rank]? = some (id, type))
    (hvalue : Yields (Ghw.scalar b.types type) w.wire value n)
    (hsame : Wire.Same v.wire (w.wire.skip n)) (h : ReadsList b v time false (rank + 1) events) :
    ReadsList b w time false rank
      (.scalar ⟨id, rank, time.toNat, w.wire.offset, value, false, noRoute⟩ :: events) := by
  obtain ⟨records, ends, lists, hlaid, hrest, rfl⟩ := h
  have hplace : v.wire.place = w.wire.place := hsame.place_eq
  have hoffset : v.wire.offset = w.wire.offset + n := hsame.offset_eq
  rw [hoffset] at hlaid
  exact ⟨_ :: records, ends, lists, .scalar hactive
    (hvalue.same (unbuffered_scalar b.types type) w.wire.same_place.symm) (hlaid.same hplace),
    hrest.same hplace, rfl⟩

/-- The rest of a cycle list begins with a distance and a payload. -/
theorem ReadsList.record {delta id type m n : Nat} {value : Scalar}
    (hdelta : Yields uleb w.wire delta m) (hpos : delta ≠ 0) (hfits : rank + delta ≤ Types.usizeMax)
    (hactive : b.active[rank + delta - 1]? = some (id, type))
    (hvalue : Yields (Ghw.scalar b.types type) (w.wire.skip m) value n)
    (hsame : Wire.Same v.wire (w.wire.skip (m + n)))
    (h : ReadsList b v time true (rank + delta) events) :
    ReadsList b w time true rank
      (.scalar ⟨id, rank + delta - 1, time.toNat, w.wire.offset + m, value, true, noRoute⟩
        :: events) := by
  obtain ⟨records, ends, lists, hlaid, hrest, rfl⟩ := h
  have hplace : v.wire.place = w.wire.place := hsame.place_eq
  have hoffset : v.wire.offset = w.wire.offset + m + n :=
    hsame.offset_eq.trans (Nat.add_assoc _ _ _).symm
  rw [hoffset] at hlaid
  exact ⟨_ :: records, ends, lists, .record (hdelta.same unbuffered_uleb w.wire.same_place.symm)
    hpos
    hfits hactive (hvalue.same (unbuffered_scalar b.types type) (w.wire.skip m).same_place.symm)
    (hlaid.same hplace), hrest.same hplace, rfl⟩

/-- A list begins where a time is entered. -/
theorem ReadsList.list (h : ReadsList b v time cyclic 0 events) {offset : Nat}
    {current : Option Nat} (hplace : v.wire.place = w.wire.place) (hle : offset ≤ v.wire.offset)
    (htimes : ∀ previous ∈ current, previous ≤ time.toNat) :
    ∃ lists, LaidOut b.types b.active w.wire offset current lists ∧
      passed current time.toNat ++ events = spelled current lists := by
  obtain ⟨records, ends, lists, hlaid, hrest, rfl⟩ := h
  refine ⟨⟨time.toNat, cyclic, records⟩ :: lists,
    .cons hle htimes (hlaid.same hplace) (hrest.same hplace), ?_⟩
  rw [spelled, Index.SourceList.events, List.append_assoc]
  rfl

/-- **A step of an accepted walk**: what it tells comes before what the next state reads. One case
for each place where the walk may stand. -/
theorem Reads.step {out : List Emission} (hstep : walkStep b false w = (out, .next v))
    (hfits : w.pace.Fits b.stop) (h : Reads b v events) : Reads b w (told out ++ events) := by
  have hmoved := walkStep_moved b w
  rw [hstep] at hmoved
  have hadvance : Advance b w.pace (told out) v.pace := hmoved
  have hfits' := hadvance.fits hfits
  obtain ⟨n, hsame⟩ := walkStep_skips b w v (by rw [hstep])
  have hplace : v.wire.place = w.wire.place := hsame.place_eq
  have hle : w.wire.offset ≤ v.wire.offset := hsame.offset_eq ▸ Nat.le_add_right _ _
  -- A move that enters a time tells of the one that it follows, and reads a list.
  have henters : EnterMove b w.clock (told out) v.pace →
      ∃ lists, LaidOut b.types b.active w.wire w.wire.offset (w.clock.current.map Int.toNat) lists ∧
        told out ++ events = spelled (w.clock.current.map Int.toNat) lists := by
    rintro ⟨time, ticks, clock, henter, htold, hphase⟩
    obtain ⟨hticks, htimes⟩ := enter_passed henter fun t ht => (hfits.current t ht).1
    have hread : ∃ cyclic, ReadsList b v time cyclic 0 events := by
      unfold Reads at h
      rcases hphase with hphase | hphase
      · rw [show v.phase = .snapshot time 0 from hphase] at h
        exact ⟨false, h⟩
      · rw [show v.phase = .cycle time 0 from hphase] at h
        exact ⟨true, h⟩
    obtain ⟨cyclic, hread⟩ := hread
    rw [htold, hticks]
    exact hread.list hplace hle htimes
  -- At the end of a list, the lists that are left follow it.
  have hends : ∀ (time : Int) (cyclic : Bool) (rank : Nat) (ends : Nat),
      w.clock.current = some time →
      w.footer = false → v.clock = w.clock → v.footer = w.footer →
      (v.phase = .section ∨ v.phase = .increment time) → ends ≤ v.wire.offset →
      Laid b.types b.active w.wire time.toNat cyclic w.wire.offset rank [] ends →
      ReadsList b w time cyclic rank (.listEnd time.toNat :: events) := by
    intro time cyclic rank ends hcurrent hfooter hclock hfooter' hphase hends hlaid
    have hread : ∃ lists, LaidOut b.types b.active v.wire v.wire.offset
        (v.clock.current.map Int.toNat)
        lists ∧ events = spelled (v.clock.current.map Int.toNat) lists := by
      unfold Reads at h
      rcases hphase with hphase | hphase <;> rw [hphase] at h <;> dsimp only at h <;>
        rw [hfooter', hfooter] at h <;> exact h
    obtain ⟨lists, hrest, rfl⟩ := hread
    rw [hclock, hcurrent] at hrest ⊢
    exact ⟨[], ends, lists, hlaid, (hrest.same hplace).mono hends, rfl⟩
  have hpace : ∀ phase, w.phase = phase → w.pace = ⟨w.clock, w.footer, phase⟩ := by
    rintro _ rfl
    rfl
  unfold Reads
  cases hphase : w.phase with
  | snapshot time rank =>
    obtain ⟨hfooter, hcurrent⟩ := hfits.listed time (.inr (.inl ⟨rank, hphase⟩))
    rcases snapshot_next hphase hstep with
        ⟨id, type, value, k, hactive, hvalue, hsame', hphase', htold⟩ |
      ⟨hactive, hphase', htold⟩
    · unfold Reads at h
      rw [hphase'] at h
      rw [htold]
      exact ReadsList.scalar hactive hvalue hsame' h
    · rw [hpace _ hphase] at hadvance
      obtain ⟨hclock, hfooter'⟩ := hadvance.of_list (.inl rfl)
      rw [htold]
      exact hends time false rank _ hcurrent hfooter hclock hfooter' (.inl hphase') hle
        (.filled hactive)
  | cycle time rank =>
    obtain ⟨hfooter, hcurrent⟩ := hfits.listed time (.inr (.inr ⟨rank, hphase⟩))
    rcases cycle_next hphase hstep with
      ⟨delta, id, type, m, k, value, hdelta, hpos, hfit, hactive, hvalue, hsame', hphase', htold⟩ |
      ⟨k, hzero, hsame', hphase', htold⟩
    · unfold Reads at h
      rw [hphase'] at h
      rw [htold]
      exact ReadsList.record hdelta hpos hfit hactive hvalue hsame' h
    · rw [hpace _ hphase] at hadvance
      obtain ⟨hclock, hfooter'⟩ := hadvance.of_list (.inr rfl)
      rw [htold]
      exact hends time true rank _ hcurrent hfooter hclock hfooter' (.inr hphase')
        hsame'.offset_eq.ge (.closed (hzero.same unbuffered_uleb w.wire.same_place.symm))
  | «section» =>
    rw [hpace _ hphase] at hadvance
    rcases hadvance.of_section with ⟨hfooter, hmove⟩ | ⟨htold, hfooter⟩
    · dsimp only
      rw [hfooter]
      exact henters hmove
    · have hnil := h.of_footer hfits' hfooter
      rw [htold, hnil, List.append_nil]
      dsimp only
      cases w.footer with
      | true => rfl
      | false => exact ⟨[], .nil, Clock.completed_eq _⟩
  | increment time =>
    have hfooter : w.footer = false := (hfits.listed time (.inl hphase)).1
    rw [hpace _ hphase] at hadvance
    dsimp only
    rw [hfooter]
    rcases hadvance.of_increment with hmove | ⟨htold, hpace'⟩
    · exact henters hmove
    · have hphase' : v.phase = .section := congrArg Pace.phase hpace'
      have hclock : v.clock = w.clock := congrArg Pace.clock hpace'
      have hfooter' : v.footer = w.footer := congrArg Pace.footer hpace'
      unfold Reads at h
      rw [hphase'] at h
      dsimp only at h
      rw [hfooter', hfooter, hclock] at h
      obtain ⟨lists, hrest, rfl⟩ := h
      rw [htold]
      exact ⟨lists, (hrest.same hplace).mono hle, rfl⟩
  | directory =>
    have hfooter : w.footer = true := hfits.footer (.inl hphase)
    rw [hpace _ hphase] at hadvance
    obtain ⟨htold, hpace'⟩ := hadvance.of_directory
    have hfooter' : v.footer = true := (congrArg Pace.footer hpace').trans hfooter
    dsimp only
    rw [hfooter, htold, h.of_footer hfits' hfooter']
    rfl
  | tailer =>
    rw [hpace _ hphase] at hadvance
    exact hadvance.of_tailer.elim

/-- An accepted walk ends outside a list, after the tick of the current time. -/
theorem Reads.stop {out : List Emission} {span : Option TimeSpan} {wire : Wire}
    (hstep : walkStep b false w = (out, .stop (.ok span, wire))) (hfits : w.pace.Fits b.stop) :
    Reads b w (told out) := by
  have hmoved := walkStep_moved b w
  rw [hstep] at hmoved
  have hhalt : Halt b w.pace (told out) (.ok span) := hmoved
  -- What is told closes the current time.
  have hlast : told out = w.clock.completed.map .tick → w.footer = false →
      (w.phase = .section ∨ ∃ time, w.phase = .increment time) → Reads b w (told out) := by
    intro htold hfooter hphase
    unfold Reads
    rcases hphase with hphase | ⟨time, hphase⟩ <;> rw [hphase] <;> dsimp only <;> rw [hfooter] <;>
      exact ⟨[], .nil, htold⟩
  generalize hp : w.pace = p at hhalt
  generalize hevents : told out = events at hhalt
  generalize hr : (Except.ok span : Except Error (Option TimeSpan)) = r at hhalt
  have hphase : w.phase = p.phase := hp ▸ rfl
  have hfooter : w.footer = p.footer := hp ▸ rfl
  have hclock : w.clock = p.clock := hp ▸ rfl
  cases hhalt with
  | error e => cases hr
  | @past _ time ticks henters henter =>
    rw [← hevents]
    have hfooter' : p.footer = false := by
      rcases henters with ⟨-, hfooter'⟩ | ⟨time', hincrement⟩
      · exact hfooter'
      · exact hfooter ▸ (hfits.listed time' (.inl (hphase.trans hincrement))).1
    refine hlast ?_ (hfooter.trans hfooter') ?_
    · rw [hevents, hclock]
      obtain ⟨-, hstop, hcases⟩ := Clock.enter_ended henter
      rcases hcases with ⟨hnone, rfl⟩ | hsame | rfl
      · rw [Clock.completed, hnone]
        rfl
      · have hinside := (hfits.current time (by
          show time ∈ w.clock.current
          rw [hclock, hsame]
          rfl)).2
        omega
      · rfl
    · rcases henters with ⟨hsection, -⟩ | ⟨time', hincrement⟩
      · exact .inl (hphase.trans hsection)
      · exact .inr ⟨time', hphase.trans hincrement⟩
  | @eof clock footer =>
    dsimp only at hphase hfooter hclock
    subst hfooter hclock
    cases hfooter : w.footer with
    | false =>
      rw [hfooter] at hevents
      rw [← hevents]
      exact hlast hevents hfooter (.inl hphase)
    | true =>
      unfold Reads
      rw [hphase]
      dsimp only
      rw [hfooter]
      rfl
  | @tailed clock footer =>
    unfold Reads
    have hfooter' : w.footer = true := hfits.footer (.inr hphase)
    rw [hphase]
    dsimp only
    rw [hfooter']
    rfl

/-- The events of a list are of its time. -/
theorem Laid.event_time {t : Types} {active : Active} {wire : Wire} {time offset rank ends : Nat}
    {records : List ScalarEvent} (h : Laid t active wire time cyclic offset rank records ends)
    {e : Event} (he : e ∈ records.map Event.scalar ++ [.listEnd time]) : e.time = time := by
  rcases List.mem_append.1 he with he | he
  · obtain ⟨event, hevent, rfl⟩ := List.mem_map.1 he
    exact (h.lies event hevent).time
  · rw [List.mem_singleton.1 he]
    rfl

/-- Nothing that is told of lists is before the current time. -/
theorem LaidOut.le_spelled {t : Types} {active : Active} {wire : Wire} {offset : Nat}
    {current : Option Nat} {lists : List Index.SourceList}
    (h : LaidOut t active wire offset current lists) :
    ∀ previous ∈ current, ∀ e ∈ spelled current lists, previous ≤ e.time := by
  induction h with
  | nil =>
    rintro previous hprevious e he
    obtain ⟨tick, htick, rfl⟩ := List.mem_map.1 he
    cases Option.mem_unique hprevious (Option.mem_toList.1 htick)
    exact Nat.le_refl _
  | cons _ htimes hlaid _ ih =>
    intro previous hprevious e he
    rcases List.mem_append.1 he with he | he
    · obtain ⟨tick, htick, rfl⟩ := List.mem_map.1 he
      obtain ⟨hmem, -⟩ := Option.mem_filter_iff.1 (Option.mem_toList.1 htick)
      cases Option.mem_unique hprevious hmem
      exact Nat.le_refl _
    · rcases List.mem_append.1 he with he | he
      · rw [hlaid.event_time he]
        exact htimes previous hprevious
      · exact (htimes previous hprevious).trans (ih _ rfl e he)

/-- The lists up to an end tell what is told up to it. -/
theorem LaidOut.spelled_upto {t : Types} {active : Active} {wire : Wire} {offset : Nat}
    {current : Option Nat} {lists : List Index.SourceList}
    (h : LaidOut t active wire offset current lists)
    {stop : Nat} (hcurrent : ∀ previous ∈ current, previous ≤ stop) :
    (spelled current lists).filter (fun e => decide (e.time ≤ stop)) =
      spelled current (lists.filter fun list => decide (list.time ≤ stop)) := by
  have hticks : ∀ current : Option Nat, (∀ previous ∈ current, previous ≤ stop) →
      (current.toList.map Event.tick).filter (fun e => decide (e.time ≤ stop)) =
        current.toList.map Event.tick := by
    intro current hcurrent
    refine List.filter_eq_self.2 fun e he => ?_
    obtain ⟨tick, htick, rfl⟩ := List.mem_map.1 he
    exact decide_eq_true (hcurrent tick (Option.mem_toList.1 htick))
  induction h with
  | nil => exact hticks _ hcurrent
  | @cons _ _ _ current list lists _ htimes hlaid hrest ih =>
    have hpassed : (passed current list.time).filter (fun e => decide (e.time ≤ stop)) =
        passed current list.time := by
      refine hticks _ fun previous hprevious => hcurrent previous ?_
      exact (Option.mem_filter_iff.1 hprevious).1
    rw [spelled, List.filter_append, List.filter_append, hpassed]
    by_cases hstop : list.time ≤ stop
    · have hevents : list.events.filter (fun e => decide (e.time ≤ stop)) = list.events :=
        List.filter_eq_self.2 fun e he => decide_eq_true ((hlaid.event_time he).symm ▸ hstop)
      rw [hevents, List.filter_cons, if_pos (decide_eq_true hstop), spelled,
        ih fun previous hprevious => by cases hprevious; exact hstop]
    · -- Everything from here on is past the end.
      have hlater : ∀ later ∈ list :: lists, ¬ later.time ≤ stop := by
        intro later hmem hle
        rcases List.mem_cons.1 hmem with rfl | hmem
        · exact hstop hle
        · exact hstop ((hrest.le_time _ rfl later hmem).trans hle)
      have hnone : (list :: lists).filter (fun list => decide (list.time ≤ stop)) = [] :=
        List.filter_eq_nil_iff.2 fun later hmem => by simpa using hlater later hmem
      have hevents : list.events.filter (fun e => decide (e.time ≤ stop)) = [] :=
        List.filter_eq_nil_iff.2 fun e he => by simpa [hlaid.event_time he] using hstop
      have hspelled : (spelled (some list.time) lists).filter (fun e => decide (e.time ≤ stop))
        = [] :=
        List.filter_eq_nil_iff.2 fun e he => by
          have hle := hrest.le_spelled _ rfl e he
          simp only [decide_eq_true_eq]
          omega
      rw [hevents, hspelled, hnone, List.append_nil, List.append_nil, passed, spelled]
      cases current with
      | none => rfl
      | some previous =>
        have hle := hcurrent previous rfl
        rw [Option.filter_some, if_pos (decide_eq_true (by omega))]

/-- Nothing that is read from a state on is before its time. -/
theorem Reads.le_time (h : Reads b w events) (hfits : w.pace.Fits b.stop) {t : Int}
    (ht : t ∈ w.clock.current) : ∀ e ∈ events, t.toNat ≤ e.time := by
  have hlist : ∀ time cyclic rank, w.clock.current = some time →
      ReadsList b w time cyclic rank events →
      ∀ e ∈ events, t.toNat ≤ e.time := by
    rintro time cyclic rank hcurrent ⟨records, ends, lists, hlaid, hrest, rfl⟩ e he
    rw [hcurrent] at ht
    cases ht
    rw [List.append_cons] at he
    rcases List.mem_append.1 he with he | he
    · exact (hlaid.event_time he).ge
    · exact hrest.le_spelled _ rfl e he
  have hlists : (if w.footer then events = [] else
      ∃ lists, LaidOut b.types b.active w.wire w.wire.offset (w.clock.current.map Int.toNat) lists ∧
        events = spelled (w.clock.current.map Int.toNat) lists) →
      ∀ e ∈ events, t.toNat ≤ e.time := by
    intro h e he
    split at h
    · rw [h] at he
      cases he
    · obtain ⟨lists, hrest, rfl⟩ := h
      exact hrest.le_spelled _ (Option.mem_map_of_mem _ ht) e he
  unfold Reads at h
  cases hphase : w.phase with
  | snapshot time rank =>
    rw [hphase] at h
    exact hlist time _ rank (hfits.listed time (.inr (.inl ⟨rank, hphase⟩))).2 h
  | cycle time rank =>
    rw [hphase] at h
    exact hlist time _ rank (hfits.listed time (.inr (.inr ⟨rank, hphase⟩))).2 h
  | «section» | increment time | directory | tailer =>
    rw [hphase] at h
    exact hlists h

/-- A time that ends a walk ends it with an earlier end, too. -/
theorem Clock.enter_earlier {clock : Clock} {stop stop' : Nat} {ticks : List Nat}
    (h : clock.enter time stop' = .ended ticks) (hstop : stop < time.toNat) :
    clock.enter time stop = .ended ticks := by
  unfold Clock.enter at h ⊢
  split at h
  · cases h
  next hvalid =>
  rw [if_neg hvalid]
  dsimp only at h ⊢
  split at h
  · rw [if_pos hstop]
    exact h
  · cases h

/-- A time that is entered is entered up to any end that is not before it. -/
theorem Clock.enter_inside {clock clock' : Clock} {stop stop' : Nat} {ticks : List Nat}
    (h : clock.enter time stop' = .entered ticks clock') (hstop : time.toNat ≤ stop) :
    clock.enter time stop = .entered ticks clock' := by
  unfold Clock.enter at h ⊢
  split at h
  · cases h
  next hvalid =>
  rw [if_neg hvalid]
  dsimp only at h ⊢
  split at h
  · cases h
  · rw [if_neg (Nat.not_lt.2 hstop)]
    exact h

/-- A time that is entered ends a walk whose end is before it. -/
theorem Clock.enter_past {clock clock' : Clock} {stop stop' : Nat} {ticks : List Nat}
    (h : clock.enter time stop' = .entered ticks clock') (hstop : stop < time.toNat) :
    clock.enter time stop = .ended ticks := by
  unfold Clock.enter at h ⊢
  split at h
  · cases h
  next hvalid =>
  rw [if_neg hvalid]
  dsimp only at h ⊢
  split at h
  · cases h
  · cases h
    rw [if_pos hstop]

/-- The events of a walk with an earlier end are those up to the end. -/
theorem run_stop {out : List Emission} {r : Walked} (h : Runs (walkStep b false) w out r)
    (hfits : w.pace.Fits b.stop) {span : Option TimeSpan} (hok : r.1 = .ok span) :
    Reads b w (told out) ∧ ∀ stop ≤ b.stop, (∀ t ∈ w.clock.current, t.toNat ≤ stop) →
      ∃ out' r', Runs (walkStep { b with stop } false) w out' r' ∧ (∃ span', r'.1 = .ok span') ∧
        told out' = (told out).filter fun e => decide (e.time ≤ stop) := by
  have hkept : ∀ {clock : Clock} {stop : Nat} {events : List Event},
      (∀ t ∈ clock.current, t.toNat ≤ stop) →
      (∀ e ∈ events, ∃ t ∈ clock.current, e.time = t.toNat) →
      (events.filter fun e => decide (e.time ≤ stop)) = events := by
    intro clock stop events hcurrent hevents
    refine List.filter_eq_self.2 fun e he => ?_
    obtain ⟨t, ht, htime⟩ := hevents e he
    exact decide_eq_true (htime ▸ hcurrent t ht)
  induction h with
  | @stop w out r hstep =>
    obtain ⟨result, wire⟩ := r
    obtain rfl : result = .ok span := hok
    refine ⟨Reads.stop hstep hfits, fun stop hle hcurrent => ?_⟩
    have hmoved := walkStep_moved b w
    rw [hstep] at hmoved
    refine ⟨out, (.ok span, wire), .stop ?_, ⟨span, rfl⟩,
      (hkept hcurrent (Halt.told_times hmoved hfits)).symm⟩
    rcases walkStep_stop b w with hsame | ⟨u, n, time, phase, -, -, -, -, -, henters⟩
    · exact (hsame stop).trans hstep
    · have hlate : u.enter b.stop time phase = (out, .stop (.ok span, wire)) :=
        (henters b.stop).symm.trans hstep
      refine (henters stop).trans ?_
      unfold Walk.enter at hlate ⊢
      cases henter : u.clock.enter time b.stop with
      | refused => rw [henter] at hlate; cases hlate
      | entered ticks clock => rw [henter] at hlate; cases hlate
      | ended ticks =>
        rw [henter] at hlate
        rw [Clock.enter_earlier henter ((Clock.enter_ended henter).2.1.trans_le' hle)]
        exact hlate
  | @next w v out rest r hstep hruns ih =>
    have hmoved := walkStep_moved b w
    rw [hstep] at hmoved
    have hadvance : Advance b w.pace (told out) v.pace := hmoved
    have hfits' := hadvance.fits hfits
    obtain ⟨hreads, hearlier⟩ := ih hfits' hok
    have htold : told (out ++ rest) = told out ++ told rest := List.map_append
    rw [htold]
    refine ⟨hreads.step hstep hfits, fun stop hle hcurrent => ?_⟩
    rw [List.filter_append, hkept hcurrent (hadvance.told_times hfits)]
    have hearlyFits : w.pace.Fits stop :=
      ⟨fun t ht => ⟨(hfits.current t ht).1, hcurrent t ht⟩, hfits.listed, hfits.footer⟩
    by_cases hstep' : walkStep { b with stop } false w = (out, .next v)
    · -- The step is the same with the earlier end.
      have hmoved' := walkStep_moved { b with stop } w
      rw [hstep'] at hmoved'
      have hadvance' : Advance { b with stop } w.pace (told out) v.pace := hmoved'
      obtain ⟨out', r', hruns', hok', htold'⟩ := hearlier stop hle fun t ht =>
        ((hadvance'.fits hearlyFits).current t ht).2
      refine ⟨out ++ out', r', .next hstep' hruns', hok', ?_⟩
      rw [← htold']
      exact List.map_append
    · -- It enters a time past the earlier end.
      rcases walkStep_stop b w with hsame | ⟨u, n, time, phase, -, -, -, -, -, henters⟩
      · exact absurd ((hsame stop).trans hstep) hstep'
      have hlate : u.enter b.stop time phase = (out, .next v) := (henters b.stop).symm.trans hstep
      cases henter : u.clock.enter time b.stop with
      | refused => unfold Walk.enter at hlate; rw [henter] at hlate; cases hlate
      | ended ticks => unfold Walk.enter at hlate; rw [henter] at hlate; cases hlate
      | entered ticks clock =>
        have hpast : stop < time.toNat := by
          refine Nat.lt_of_not_le fun hinside => hstep' ?_
          refine (henters stop).trans ?_
          rw [← hlate, Walk.enter, Walk.enter, henter, Clock.enter_inside henter hinside]
        unfold Walk.enter at hlate
        rw [henter] at hlate
        cases hlate
        have hended := Clock.enter_past henter hpast
        have hcurrent' : time ∈ clock.current := by
          obtain ⟨-, -, rfl, -⟩ := Clock.enter_entered henter
          rfl
        have hlater : (told rest).filter (fun e => decide (e.time ≤ stop)) = [] := by
          refine List.filter_eq_nil_iff.2 fun e he => ?_
          have hle := hreads.le_time hfits' hcurrent' e he
          simp only [decide_eq_true_eq]
          omega
        refine ⟨(ticks.map Event.tick).map u.emit, (.ok u.clock.span, u.wire), .stop ?_,
          ⟨_, rfl⟩, ?_⟩
        · exact (henters stop).trans (by rw [Walk.enter, hended]; rfl)
        · rw [hlater, List.append_nil, told_emit, told, List.map_map]
          rfl

end

/-! ## Walks -/

section
variable {b : Body} {wire : Wire} {events : List Event}

/-- How a walk ends whose visitor went through the events of a run: with the break of the visitor,
or as the run does. -/
def walked {σ B : Type} (r : Walked) : σ × ControlFlow B → σ × Except Error (ControlFlow B)
  | (c, .break value) => (c, .ok (.break value))
  | (c, .continue) => (c, r.1.map fun _ => .continue)

/-- A visitor gets the events of the emissions, and breaks where it does. -/
theorem visit_onEvent {σ B : Type} (visitor : σ → Event → σ × ControlFlow B) (r : Walked)
    (out : List Emission) (c : σ) :
    ((returned r (visit (onEvent visitor) c out)).1,
      (returned r (visit (onEvent visitor) c out)).2.1.map Prod.fst) =
        walked r (visit visitor c (told out)) := by
  induction out generalizing c with
  | nil => obtain ⟨_ | _, wire⟩ := r <;> rfl
  | cons emission out ih =>
    have htold : told (emission :: out) = emission.event :: told out := rfl
    simp only [htold, visit, onEvent]
    rcases visitor c emission.event with ⟨c', _ | value⟩
    · exact ih c'
    · rfl

/-- What a walk returns that hands over the events of a run. -/
theorem walk_walked {bulk : Bool} {out : List Emission} {r : Walked}
    (h : Runs (walkStep b bulk) (Walk.start wire) out r) {σ B : Type}
    (visitor : σ → Event → σ × ControlFlow B) (c : σ) :
    ((walk b bulk visitor c wire).1, (walk b bulk visitor c wire).2.1.map Prod.fst) =
      walked r (visit visitor c (told out)) := by
  rw [walk_eq h]
  exact visit_onEvent visitor r out c

/-- The walk of a run that ends well returns what the visitor does. -/
theorem walk_visits {bulk : Bool} {out : List Emission} {r : Walked} {span : Option TimeSpan}
    (h : Runs (walkStep b bulk) (Walk.start wire) out r) (hok : r.1 = .ok span) {σ B : Type}
    (visitor : σ → Event → σ × ControlFlow B) (c : σ) :
    (walk b bulk visitor c wire).1 = (visit visitor c (told out)).1 ∧
      (walk b bulk visitor c wire).2.1.map Prod.fst = .ok (visit visitor c (told out)).2 := by
  have hwalked := walk_walked h visitor c
  have hend : ∀ result : σ × ControlFlow B, walked r result = (result.1, .ok result.2) := by
    rintro ⟨c', _ | value⟩
    · show (c', r.1.map _) = _
      rw [hok]
      rfl
    · rfl
  rw [hend] at hwalked
  exact Prod.mk.inj hwalked

/-- The payload of a record. -/
def PayloadAt (b : Body) (wire : Wire) (event : ScalarEvent) : Prop :=
  ∃ type n, b.active[event.rank]? = some (event.id, type) ∧
    Yields (scalar b.types type) (wire.place event.offset) event.value n

/-- The payload of each record can be decoded again at its position. -/
theorem Laid.payloads {time offset rank ends : Nat} {cyclic : Bool} {records : List ScalarEvent}
    (h : Laid b.types b.active wire time cyclic offset rank records ends) :
    ∀ event ∈ records, PayloadAt b wire event := by
  induction h with
  | filled => exact fun event hevent => nomatch hevent
  | closed => exact fun event hevent => nomatch hevent
  | scalar hactive hvalue _ ih =>
    intro event hevent
    rcases List.mem_cons.1 hevent with rfl | hevent
    · exact ⟨_, _, hactive, hvalue⟩
    · exact ih event hevent
  | record _ _ _ hactive hvalue _ ih =>
    intro event hevent
    rcases List.mem_cons.1 hevent with rfl | hevent
    · exact ⟨_, _, hactive, hvalue⟩
    · exact ih event hevent

/-- A scalar of lists is a record of one. -/
theorem mem_spelled {event : ScalarEvent} (lists : List Index.SourceList) : ∀ current : Option Nat,
    .scalar event ∈ spelled current lists → ∃ list ∈ lists, event ∈ list.records := by
  have hticks : ∀ {ticks : List Nat}, .scalar event ∉ ticks.map Event.tick := fun h => by
    obtain ⟨tick, -, heq⟩ := List.mem_map.1 h
    cases heq
  induction lists with
  | nil => exact fun current h => absurd h hticks
  | cons list lists ih =>
    intro current h
    rcases List.mem_append.1 h with h | h
    · exact absurd h hticks
    · rcases List.mem_append.1 h with h | h
      · rcases List.mem_append.1 h with h | h
        · obtain ⟨record, hrecord, heq⟩ := List.mem_map.1 h
          cases heq
          exact ⟨list, .head _, hrecord⟩
        · cases List.mem_singleton.1 h
      · obtain ⟨found, hfound, hrecord⟩ := ih _ h
        exact ⟨found, .tail _ hfound, hrecord⟩

/-- An index takes no notice of the ticks between lists. -/
theorem visitAll_spelled (checked : Bool) (lists : List Index.SourceList) :
    ∀ (current : Option Nat) (positions : Option Index),
      Index.visitAll checked (spelled current lists) positions =
        Index.visitAll checked (lists.flatMap Index.SourceList.events) positions := by
  have htick : ∀ (tick : Option Nat) (events : List Event) (positions : Option Index),
      Index.visitAll checked (tick.toList.map Event.tick ++ events) positions =
        Index.visitAll checked events positions := by
    intro tick events positions
    cases tick with
    | none => rfl
    | some time => cases positions <;> rfl
  induction lists with
  | nil =>
    intro current positions
    have hticks := htick current [] positions
    rwa [List.append_nil] at hticks
  | cons list lists ih =>
    intro current positions
    rw [spelled, passed, htick, List.flatMap_cons, Index.visitAll_append, Index.visitAll_append]
    exact congrArg _ (funext (ih (some list.time)))

/-- The run of an accepted walk, and those with an earlier end. -/
theorem walk_laid {out : List Emission} {r : Walked} {span : Option TimeSpan}
    (h : Runs (walkStep b true) (Walk.start wire) out r) (hok : r.1 = .ok span) :
    (∃ lists, LaidOut b.types b.active wire wire.offset none lists ∧
      told out = spelled none lists) ∧
    ∀ stop ≤ b.stop, ∀ wire', Wire.Same wire' wire → ∃ out' r',
      Runs (walkStep { b with stop } true) (Walk.start wire') out' r' ∧
      (∃ span', r'.1 = .ok span') ∧
        told out' = (told out).filter fun e => decide (e.time ≤ stop) := by
  obtain ⟨r₁, hrun, hresult, -⟩ := runs_unbuffered h (.refl _)
  have hfits : (Walk.start wire).pace.Fits b.stop :=
    ⟨fun t ht => (by cases ht),
      fun time htime => (by rcases htime with h | ⟨_, h⟩ | ⟨_, h⟩ <;> cases h),
      fun hfooter => (by rcases hfooter with h | h <;> cases h)⟩
  obtain ⟨hreads, hearlier⟩ := run_stop hrun hfits (hresult.symm.trans hok)
  refine ⟨hreads, fun stop hle wire' hsame => ?_⟩
  obtain ⟨out₁, r₂, hrun₁, ⟨span', hok'⟩, htold⟩ := hearlier stop hle fun t ht => (by cases ht)
  obtain ⟨out', r', hrun'⟩ := walk_total { b with stop } true (Walk.start wire')
  have hstart : (Walk.start wire').Same (Walk.start wire) := ⟨hsame, rfl, rfl, rfl⟩
  obtain ⟨r₃, hrun₃, hresult', -⟩ := runs_unbuffered hrun' hstart
  obtain ⟨rfl, rfl⟩ := hrun₃.unique hrun₁
  exact ⟨_, r', hrun', ⟨span', hresult'.trans hok'⟩, htold⟩

/-- The run of a walk that hands over its events. -/
theorem accepted_runs {offset : Nat} {span : Option TimeSpan}
    (h : walk b true (fun seen e => (seen ++ [e], ControlFlow.continue (B := Empty))) [] wire =
      (events, .ok (.continue, span), offset)) :
    ∃ out r, Runs (walkStep b true) (Walk.start wire) out r ∧ r.1 = .ok span ∧
      told out = events := by
  obtain ⟨out, r, hrun⟩ := walk_total b true (Walk.start wire)
  have hvisit : visit (onEvent fun seen e => (seen ++ [e], ControlFlow.continue (B := Empty))) []
      out = (told out, .continue) := by
    have hpush := visit_push (B := Empty × Nat × Option TimeSpan) ([] : List Event) (told out)
    rw [told, visit_map] at hpush
    exact hpush
  rw [walk_eq hrun, hvisit] at h
  refine ⟨out, r, hrun, ?_, congrArg Prod.fst h⟩
  have hresult : (r.1.map fun span => (ControlFlow.continue (B := Empty), span)) =
      .ok (.continue, span) := congrArg (fun x => x.2.1) h
  cases hr : r.1 with
  | error e => rw [hr] at hresult; cases hresult
  | ok span' => rw [hr] at hresult; cases hresult; rfl

/-- **An accepted body is read up to any end.** When the walk accepts a body, its events are those
of lists that lie one after the other in it, with one tick for each time, and each payload is
decoded again at the offset of its scalar. With every earlier end and whatever is buffered, the walk
returns no error: a visitor gets the events up to the end, and its own break is returned. -/
theorem accepted_upto {offset : Nat} {span : Option TimeSpan}
    (h : walk b true (fun seen e => (seen ++ [e], ControlFlow.continue (B := Empty))) [] wire =
      (events, .ok (.continue, span), offset)) :
    (∃ lists, LaidOut b.types b.active wire wire.offset none lists ∧ events = spelled none lists) ∧
    (∀ event, .scalar event ∈ events → PayloadAt b wire event) ∧
    ∀ stop ≤ b.stop, ∀ wire', Wire.Same wire' wire →
      ∀ {σ B : Type} (visitor : σ → Event → σ × ControlFlow B) (c : σ),
        (walk { b with stop } true visitor c wire').1 =
            (visit visitor c (events.filter fun e => decide (e.time ≤ stop))).1 ∧
          (walk { b with stop } true visitor c wire').2.1.map Prod.fst =
            .ok (visit visitor c (events.filter fun e => decide (e.time ≤ stop))).2 := by
  obtain ⟨out, r, hrun, hok, rfl⟩ := accepted_runs h
  obtain ⟨⟨lists, hlaid, htold⟩, hearlier⟩ := walk_laid hrun hok
  refine ⟨⟨lists, hlaid, htold⟩, fun event hevent => ?_,
    fun stop hle wire' hsame σ B visitor c => ?_⟩
  · obtain ⟨list, hlist, hrecord⟩ := mem_spelled lists none (htold ▸ hevent)
    obtain ⟨start, ends, -, hlist'⟩ := hlaid.laid list hlist
    exact hlist'.payloads event hrecord
  · obtain ⟨out', r', hrun', ⟨span', hok'⟩, htold'⟩ := hearlier stop hle wire' hsame
    rw [← htold']
    exact walk_visits hrun' hok' visitor c

end

/-- Two bits, in a snapshot at 0 of which the second one is written again at 5. -/
def twoBits : Body where
  types := ⟨[], [⟨0, none, .scalar .b2 [0, 1] [] 0, some 1⟩], [0]⟩
  active := [(1, 0), (2, 0)]
  stop := 2 ^ 64 - 1

/-- Its bytes. -/
def twoBitsWire : Wire where
  bytes := ascii "SNP\x00" ++ List.replicate 12 0 ++ [1, 0] ++ ascii "ESN\x00" ++
    ascii "CYC\x00" ++ (5 :: List.replicate 7 0) ++ [2, 1, 0, 0x7f] ++ ascii "ECY\x00"
  fault := none
  offset := 0
  len := 42
  bigEndian := false
  version := 1
  buffered := 0
  fills := 0
  sizes := fun _ => 8

/-- The scalars of the two bits. -/
def twoBitsEvents : List Event :=
  [.scalar ⟨1, 0, 0, 16, .ordinal 1, false, noRoute⟩,
    .scalar ⟨2, 1, 0, 17, .ordinal 0, false, noRoute⟩,
    .listEnd 0, .tick 0, .scalar ⟨2, 1, 5, 35, .ordinal 1, true, noRoute⟩, .listEnd 5, .tick 5]

/-- The walk up to 4 hands over the snapshot. -/
theorem accepted_upto_bits :
    PayloadAt twoBits twoBitsWire ⟨2, 1, 5, 35, .ordinal 1, true, noRoute⟩ ∧
    (walk { twoBits with stop := 4 } true
        (fun seen e => (seen ++ [e], ControlFlow.continue (B := Empty))) [] twoBitsWire).1 =
      twoBitsEvents.take 4 := by
  have hwalk : walk twoBits true (fun seen e => (seen ++ [e], ControlFlow.continue (B := Empty))) []
      twoBitsWire = (twoBitsEvents, .ok (.continue, some ⟨0, 5⟩), 42) := by
    decide +kernel
  obtain ⟨-, hpayloads, hearlier⟩ := accepted_upto hwalk
  refine ⟨hpayloads _ (by decide), ?_⟩
  rw [(hearlier 4 (by decide) twoBitsWire rfl _ _).1]
  decide +kernel

end Ondas.Ghw
