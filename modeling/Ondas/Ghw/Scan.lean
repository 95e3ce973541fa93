import Mathlib.Data.Nat.Bitwise
import Ondas.Ghw.Laid
import Ondas.Ghw.Read
import Ondas.Library.KeyRange

/-!
# What a scan reads

A scan of a group in a list hands over what the walk has read there: the records of the selected
ranks of the group, each with the place of its rank among all selected ones as its route
(`scan_laid`). A payload that is skipped takes as many bytes as one that is read (`scalar_skips`),
so that every record is read where it lies, by induction on the list as it lies there
(`scanLoop_laid`).

The cursors of a query cover the selected ranks (`Covers`): a mask has a bit for each one of its
group, and the routes of a group start with the number of selected ranks below it.
-/

namespace Ondas.Ghw

open Library Wire

/-! ## Skipping -/

section
variable {α β V R : Type} {x : Read α} {f : α → Read β} {w w' : Wire} {b : β} {k l n : Nat}

/-- A composition that succeeds has read both of its parts. -/
theorem Yields.parts (hx : Moves k x) (hf : ∀ a, Moves l (f a))
    (hunbuffered : ∀ a, Unbuffered (f a)) (h : Yields (x >>= f) w b n) :
    ∃ a m m', Yields x w a m ∧ Yields (f a) (w.skip m) b m' ∧ n = m + m' := by
  obtain ⟨w', hrun, hsame⟩ := h
  obtain ⟨a, v, hxrun, hfrun⟩ := Decoder.bind_eq_ok.1 hrun
  obtain ⟨m, hm, hv, -, -⟩ := hx.yields hxrun
  obtain ⟨m', hm', hw', -, -⟩ := (hf a).yields hfrun
  refine ⟨a, m, m', hm, hm'.same (hunbuffered a) hv.symm, ?_⟩
  have hoffset := ((hsame.symm.trans hw').trans (hv.skip m')).offset_eq
  rw [skip_skip] at hoffset
  exact Nat.add_left_cancel hoffset

/-- Nothing is read for a value that is there. -/
theorem Yields.pure_eq {a b : α} (h : Yields (pure a) w b n) : n = 0 := by
  obtain ⟨w', hrun, hsame⟩ := h
  cases hrun
  exact Nat.left_eq_add.1 hsame.offset_eq

/-- A read whose value is computed further takes what the read takes. -/
theorem Yields.of_map {g : α → β} (hx : Moves k x)
    (h : Yields (x >>= fun a => pure (g a)) w b n) : ∃ a, Yields x w a n := by
  obtain ⟨a, m, m', hyields, hpure, rfl⟩ := h.parts hx (fun _ => .pure _) fun _ => .pure _
  rw [hpure.pure_eq]
  exact ⟨a, hyields⟩

namespace Index

/-- Skipping a field does not depend on the buffer. -/
theorem unbuffered_skipLoop (left : Nat) : Unbuffered (skipLoop left) := by
  induction left with
  | zero => exact unbuffered_malformed _
  | succ left ih => exact unbuffered_byte.bind fun byte => .ite (.pure _) ih

/-- A field that is read is skipped byte by byte, by induction on its groups. -/
theorem skipLoop_leb {turn : Nat → V → UInt8 → LebTurn V R} {exceeds unterminated : String}
    (hended : ∀ group value byte value', byte.toNat < 128 →
      turn group value byte ≠ .more value')
    (hunended : ∀ group value byte result, 128 ≤ byte.toNat →
      turn group value byte ≠ .done result) (fuel : Nat) : ∀ (group : Nat) (value : V) (w : Wire)
    (result : R) (n left : Nat),
    Yields (lebLoop turn exceeds unterminated fuel group value) w result n → n ≤ left →
      Yields (skipLoop left) w () n := by
  induction fuel with
  | zero =>
    rintro group value w result n left ⟨w', hrun, -⟩ -
    cases hrun
  | succ fuel ih =>
    intro group value w result n left h hleft
    unfold lebLoop at h
    obtain ⟨byte, m, m', hbyte, hrest, rfl⟩ := h.parts (l := 0) moves_byte
      (fun byte => by
        cases turn group value byte with
        | exceeds => exact .fail _
        | done => exact .pure _
        | more => exact (moves_lebLoop _ _ _ _ _ _).zero)
      fun byte => by
        cases turn group value byte with
        | exceeds => exact unbuffered_malformed _
        | done => exact .pure _
        | more => exact unbuffered_lebLoop _ _ _ _ _ _
    obtain ⟨hpos, -⟩ := moves_byte.taken hbyte
    obtain ⟨left, rfl⟩ : ∃ left', left = left' + 1 := ⟨left - 1, by omega⟩
    refine hbyte.bind ?_ (.ite (.pure _) (unbuffered_skipLoop left))
    by_cases hlast : byte.toNat < 128
    · rw [if_pos ((group_continues byte).2 hlast)]
      cases hturn : turn group value byte with
      | exceeds => rw [hturn] at hrest; obtain ⟨_, hrun, -⟩ := hrest; cases hrun
      | more value' => exact absurd hturn (hended _ _ _ _ hlast)
      | done result' =>
        rw [hturn] at hrest
        obtain ⟨w', hrun, hsame⟩ := hrest
        cases hrun
        exact ⟨_, rfl, hsame⟩
    · rw [if_neg fun h => hlast ((group_continues byte).1 h)]
      cases hturn : turn group value byte with
      | exceeds => rw [hturn] at hrest; obtain ⟨_, hrun, -⟩ := hrest; cases hrun
      | done result' => exact absurd hturn (hunended _ _ _ _ (Nat.le_of_not_lt hlast))
      | more value' =>
        rw [hturn] at hrest
        exact ih _ _ _ _ _ _ hrest (by omega)

/-- A signed field is skipped as it is read. -/
theorem skip_sleb {bits left : Nat} {value : Int} (h : Yields (sleb bits) w value n)
    (hleft : n ≤ left) : Yields (skipLoop left) w () n :=
  skipLoop_leb (fun _ _ _ _ => slebTurn_ended) (fun _ _ _ _ => slebTurn_unended) _ _ _ _ _ _ _ h
    hleft

/-- **A payload is skipped as it is read.** Skipping takes the bytes of the value. -/
theorem scalar_skips {t : Types} {type : Nat} {value : Scalar}
    (h : Yields (scalar t type) w value n) : Yields (skip t type) w () n := by
  unfold scalar at h
  unfold skip
  cases hscalar : t.scalar type with
  | none => rw [hscalar] at h; obtain ⟨_, hrun, -⟩ := h; cases hrun
  | some found =>
    obtain ⟨storage, literals, wkt⟩ := found
    rw [hscalar] at h
    cases storage with
    | b2 | e8 =>
      obtain ⟨ordinal, m, m', hbyte, hrest, rfl⟩ := h.parts moves_byte
        (fun _ => (moves_ensure _ _).first fun _ => .pure _)
        fun _ => (unbuffered_ensure _ fun _ _ hsame => hsame.malformed _).bind fun _ => .pure _
      obtain ⟨_, m₁, m₂, hensure, hpure, rfl⟩ := hrest.parts (moves_ensure _ _)
        (fun _ => .pure _) fun _ => .pure _
      have hzero : m₁ = 0 := by
        obtain ⟨w', hrun, hsame⟩ := hensure
        unfold ensure at hrun
        split at hrun
        · exact Yields.pure_eq ⟨w', hrun, hsame⟩
        · cases hrun
      rw [hpure.pure_eq, hzero]
      exact hbyte.map _
    | i32 | p32 | i64 | p64 =>
      obtain ⟨value, hvalue⟩ := Yields.of_map (moves_sleb _) h
      have hleft := ((moves_sleb _).taken hvalue).2
      exact Yields.look _ (skip_sleb hvalue (hleft.trans (Nat.le_succ _)))
    | f64 =>
      obtain ⟨bits, hbits⟩ := Yields.of_map moves_realBits h
      obtain ⟨bytes, m, m', hbytes, hrest, rfl⟩ := hbits.parts (moves_fixed 8)
        (fun _ => (Moves.look _).first fun _ => .pure _)
        fun _ => unbuffered_bigEndian.bind fun _ => .pure _
      have hzero : m' = 0 := Yields.pure_eq hrest
      rw [hzero]
      exact hbytes.map _

/-! ## Records of a group -/

/-- The event of a record of a group, when its rank is selected. -/
def Selected.pick (s : Selected) (base : Nat) (e : ScalarEvent) : Option ScalarEvent :=
  if s.mask.testBit (e.rank - base) then
    some { e with route := s.firstRoute + countOnes (s.mask &&& (1 <<< (e.rank - base) - 1)) }
  else none

/-- A bit of a mask. -/
theorem mask_bit (mask i : Nat) : mask &&& 1 <<< i ≠ 0 ↔ mask.testBit i = true := by
  rw [Nat.one_shiftLeft, Nat.and_two_pow]
  cases mask.testBit i with
  | false => rw [Bool.toNat_false, Nat.zero_mul]; exact iff_of_false (fun h => h rfl) nofun
  | true =>
    rw [Bool.toNat_true, Nat.one_mul]
    exact iff_of_true (Nat.two_pow_pos i).ne' rfl

/-- A record is read or skipped where its payload is. -/
theorem scanRecord_yields {t : Types} {frame : Frame} (s : Selected) (base rank id : Nat)
    {type : Nat} {value : Scalar} (h : Yields (scalar t type) w value n) :
    Yields (scanRecord t frame s base rank id type) w
      (s.pick base ⟨id, rank, frame.time, w.offset, value, frame.cyclic, noRoute⟩) n := by
  unfold scanRecord Selected.pick
  dsimp only
  by_cases hbit : s.mask.testBit (rank - base) = true
  · rw [if_pos ((mask_bit _ _).2 hbit), if_pos hbit]
    exact Yields.look _ (h.map _)
  · rw [if_neg ((mask_bit _ _).not.2 hbit), if_neg hbit]
    exact Yields.bind (m := 0) (scalar_skips h) ⟨_, rfl, rfl⟩ (.pure _)

section
variable {t : Types} {active : Active} {wire : Wire} {time offset rank ends base groupEnd : Nat}
  {cyclic : Bool} {records : List ScalarEvent} {s : Selected}

/-- A record of a group that a scan goes on to. -/
def Selected.reaches (s : Selected) (groupEnd : Nat) (e : ScalarEvent) : Bool :=
  decide (e.rank < groupEnd) && decide (e.rank ≤ s.last)

/-- A turn of a scan that reads a record where it lies, and the turns after it. -/
theorem scanLoop_turn {e : ScalarEvent} {events : List ScalarEvent}
    {type n left : Nat} {w : Wire} (hrank : active[e.rank]? = some (e.id, type))
    (hvalue : Yields (scalar t type) (wire.place e.offset) e.value n)
    (hkind : e = ⟨e.id, e.rank, time, e.offset, e.value, cyclic, noRoute⟩)
    (hw : Wire.Same w (wire.place e.offset))
    (hnext : ∀ w', Wire.Same w' (wire.place (e.offset + n)) → ∃ w'',
      scanOn active s groupEnd (scanLoop t active ⟨time, cyclic⟩ s base groupEnd left)
          (scanNext ⟨time, cyclic⟩ e.rank w') = (events, .ok (), w'') ∧ w''.place = wire.place) :
    ∃ w', scanLoop t active ⟨time, cyclic⟩ s base groupEnd (left + 1) e.rank w =
        ((s.pick base e).toList ++ events, .ok (), w') ∧ w'.place = wire.place := by
  have hrecord : Yields (scanRecord t ⟨time, cyclic⟩ s base e.rank e.id type) w _ n :=
    scanRecord_yields s base e.rank e.id (hvalue.same (unbuffered_scalar t type) hw)
  obtain ⟨w', hrun, hsame⟩ := hrecord
  have hoffset : w.offset = e.offset := hw.offset_eq
  rw [hoffset] at hrun
  obtain ⟨w'', hrest, hplace⟩ := hnext w' (hsame.trans (hw.skip n))
  refine ⟨w'', ?_, hplace⟩
  unfold scanLoop
  rw [hrank]
  dsimp only at hrun ⊢
  rw [hrun, ← hkind]
  dsimp only
  rw [hrest]

/-- The ranks that a scan goes on to are those it reaches. -/
theorem reaches_iff (hactive : groupEnd ≤ active.length) (e : ScalarEvent) :
    s.reaches groupEnd e = true ↔
      ¬ (groupEnd ≤ e.rank ∨ active.length ≤ e.rank ∨ s.last < e.rank) := by
  unfold Selected.reaches
  rw [Bool.and_eq_true, decide_eq_true_eq, decide_eq_true_eq]
  omega

/-- After a record, a scan goes on to the next one of its list when it reaches that. -/
theorem scanOn_laid {current left : Nat} {w : Wire} (hactive : groupEnd ≤ active.length)
    (h : Laid t active wire time cyclic offset (current + 1) records ends)
    (hloop : ∀ (e : ScalarEvent) (rest : List ScalarEvent) (w : Wire), records = e :: rest →
      current < e.rank → s.reaches groupEnd e = true → Wire.Same w (wire.place e.offset) →
      ∃ w', scanLoop t active ⟨time, cyclic⟩ s base groupEnd left e.rank w =
          ((records.takeWhile (s.reaches groupEnd)).filterMap (s.pick base), .ok (), w') ∧
        w'.place = wire.place)
    (hw : Wire.Same w (wire.place offset)) :
    ∃ w', scanOn active s groupEnd (scanLoop t active ⟨time, cyclic⟩ s base groupEnd left)
        (scanNext ⟨time, cyclic⟩ current w) =
          ((records.takeWhile (s.reaches groupEnd)).filterMap (s.pick base), .ok (), w') ∧
      w'.place = wire.place := by
  have hplace : ∀ {w : Wire} {offset : Nat}, Wire.Same w (wire.place offset) →
      w.place = wire.place := fun h => h.place_eq
  -- The next record is at the next rank.
  have hon : ∀ {e : ScalarEvent} {rest : List ScalarEvent} {w : Wire}, records = e :: rest →
      current < e.rank → Wire.Same w (wire.place e.offset) →
      ∃ w', scanOn active s groupEnd (scanLoop t active ⟨time, cyclic⟩ s base groupEnd left)
          (.ok (some e.rank), w) =
            ((records.takeWhile (s.reaches groupEnd)).filterMap (s.pick base), .ok (), w') ∧
        w'.place = wire.place := by
    intro e rest w hrecords hlt hw
    unfold scanOn
    dsimp only
    by_cases hreaches : s.reaches groupEnd e = true
    · rw [if_neg ((reaches_iff hactive e).1 hreaches)]
      exact hloop e rest w hrecords hlt hreaches hw
    · rw [if_pos (not_not.1 ((reaches_iff hactive e).not.1 hreaches)), hrecords,
        List.takeWhile_cons_of_neg hreaches]
      exact ⟨w, rfl, hplace hw⟩
  cases h with
  | filled hnone =>
    have hle : active.length ≤ current + 1 := List.getElem?_eq_none_iff.1 hnone
    have hnext : scanNext ⟨time, false⟩ current w = (.ok (some (current + 1)), w) := rfl
    rw [hnext]
    unfold scanOn
    dsimp only
    rw [if_pos (.inr (.inl hle))]
    exact ⟨w, rfl, hplace hw⟩
  | scalar hrank hvalue hrest => exact hon rfl (Nat.lt_succ_self _) hw
  | closed hzero =>
    obtain ⟨w', hrun, hsame⟩ := hzero.same unbuffered_uleb hw
    refine ⟨w', ?_, (hsame.trans (hw.skip _)).place_eq⟩
    unfold scanNext
    rw [if_pos rfl, Decoder.bind_of_ok hrun]
    rfl
  | @record _ _ delta id type m n _ value rest hdelta hpos hfits hrank hvalue hrest =>
    obtain ⟨w', hrun, hsame⟩ := hdelta.same unbuffered_uleb hw
    have hnext : scanNext ⟨time, true⟩ current w = (.ok (some (current + 1 + delta - 1)), w') := by
      unfold scanNext
      rw [if_pos rfl, Decoder.bind_of_ok hrun, if_neg hpos, ensure,
        decide_eq_true (show current + delta ≤ Types.usizeMax by omega),
        show current + 1 + delta - 1 = current + delta by omega]
      rfl
    rw [hnext]
    exact hon rfl (show current < current + 1 + delta - 1 by omega) (hsame.trans (hw.skip m))

/-- **A scan reads the records of a list as they lie there**, up to the end of its group and the
last rank that is selected. By induction on the list: the next record is at the next rank, or the
distance to it is read. -/
theorem scanLoop_laid (hactive : groupEnd ≤ active.length)
    (h : Laid t active wire time cyclic offset rank records ends) :
    ∀ (e : ScalarEvent) (rest : List ScalarEvent) (left : Nat) (w : Wire), records = e :: rest →
      s.reaches groupEnd e = true → groupEnd ≤ e.rank + left → Wire.Same w (wire.place e.offset) →
      ∃ w', scanLoop t active ⟨time, cyclic⟩ s base groupEnd left e.rank w =
          ((records.takeWhile (s.reaches groupEnd)).filterMap (s.pick base), .ok (), w') ∧
        w'.place = wire.place := by
  have hpicked : ∀ {e : ScalarEvent} {rest : List ScalarEvent}, s.reaches groupEnd e = true →
      ((e :: rest).takeWhile (s.reaches groupEnd)).filterMap (s.pick base) =
        (s.pick base e).toList ++
          (rest.takeWhile (s.reaches groupEnd)).filterMap (s.pick base) := by
    intro e rest hreaches
    rw [List.takeWhile_cons_of_pos hreaches, List.filterMap_cons]
    cases s.pick base e <;> rfl
  have hturns : ∀ {e : ScalarEvent} {left : Nat}, s.reaches groupEnd e = true →
      groupEnd ≤ e.rank + left → ∃ left', left = left' + 1 := by
    intro e left hreaches hleft
    unfold Selected.reaches at hreaches
    rw [Bool.and_eq_true, decide_eq_true_eq] at hreaches
    exact ⟨left - 1, by omega⟩
  induction h with
  | filled => exact fun e rest left w hrecords => by cases hrecords
  | closed => exact fun e rest left w hrecords => by cases hrecords
  | @scalar offset rank id type n ends value rest hrank hvalue hrest ih =>
    rintro e _ left w hrecords hreaches hleft hw
    cases hrecords
    obtain ⟨left, rfl⟩ := hturns hreaches hleft
    rw [hpicked hreaches]
    refine scanLoop_turn hrank hvalue rfl hw fun w' hw' => scanOn_laid hactive hrest ?_ hw'
    intro e rest' w hrest' hlt hreaches' hw
    have hleft' : groupEnd ≤ rank + (left + 1) := hleft
    have hlt' : rank < e.rank := hlt
    exact ih e rest' left w hrest' hreaches' (by omega) hw
  | @record offset rank delta id type m n ends value rest hdelta hpos hfits hrank hvalue hrest ih =>
    rintro e _ left w hrecords hreaches hleft hw
    cases hrecords
    obtain ⟨left, rfl⟩ := hturns hreaches hleft
    rw [hpicked hreaches]
    have hrank' : rank + delta = rank + delta - 1 + 1 := by omega
    rw [hrank'] at hrest
    refine scanLoop_turn hrank hvalue rfl hw fun w' hw' => scanOn_laid hactive hrest ?_ hw'
    intro e rest' w hrest' hlt hreaches' hw
    have hleft' : groupEnd ≤ rank + delta - 1 + (left + 1) := hleft
    have hlt' : rank + delta - 1 < e.rank := hlt
    exact ih e rest' left w hrest' hreaches' (by omega) hw

/-! ## Groups -/

/-- What a read of some ranks hands over of a record: the route is the place of its rank. -/
def chosen (ranks : List Nat) (e : ScalarEvent) : Option ScalarEvent :=
  if e.rank ∈ ranks then some { e with route := ranks.idxOf e.rank } else none

/-- What a scan of a group hands over of a record. -/
def chosenIn (ranks : List Nat) (group : Nat) (e : ScalarEvent) : Option ScalarEvent :=
  if e.rank / ranksPerGroup = group then chosen ranks e else none

/-- A cursor covers the selected ranks of its group. -/
structure Covers (ranks : List Nat) (s : Selected) : Prop where
  mask : ∀ i < ranksPerGroup,
    s.mask.testBit i = decide (s.cursor.group * ranksPerGroup + i ∈ ranks)
  firstRoute : s.firstRoute =
    ranks.countP fun rank => decide (rank < s.cursor.group * ranksPerGroup)
  last : ∀ rank ∈ ranks, rank / ranksPerGroup = s.cursor.group → rank ≤ s.last

variable {ranks : List Nat}

/-- The place of a rank is the number of those below it. -/
theorem idxOf_eq_countP (hsorted : ranks.Pairwise (· < ·)) {rank : Nat} (h : rank ∈ ranks) :
    ranks.idxOf rank = ranks.countP fun other => decide (other < rank) := by
  induction ranks with
  | nil => cases h
  | cons first ranks ih =>
    obtain ⟨hfirst, hrest⟩ := List.pairwise_cons.1 hsorted
    rcases List.mem_cons.1 h with rfl | h
    · rw [List.idxOf_cons_self, eq_comm, List.countP_eq_zero]
      intro other hother
      rw [decide_eq_true_eq]
      rcases List.mem_cons.1 hother with rfl | hother
      · exact Nat.lt_irrefl _
      · exact (hfirst other hother).asymm
    · have hlt := hfirst rank h
      have hcount : (first :: ranks).countP (fun other => decide (other < rank)) =
          ranks.countP (fun other => decide (other < rank)) + 1 :=
        List.countP_cons_of_pos (decide_eq_true hlt)
      rw [List.idxOf_cons_ne _ hlt.ne, ih hrest h, hcount]

/-- The bits of a mask below one are the selected ranks below its rank. -/
theorem Covers.countOnes (h : Covers ranks s) (hsorted : ranks.Pairwise (· < ·)) {i : Nat}
    (hi : i < ranksPerGroup) : countOnes (s.mask &&& (1 <<< i - 1)) =
      ranks.countP fun rank => decide (s.cursor.group * ranksPerGroup ≤ rank) &&
        decide (rank < s.cursor.group * ranksPerGroup + i) := by
  have hbits : ∀ j ∈ List.range 64, (s.mask &&& (1 <<< i - 1)).testBit j = true ↔
      (s.cursor.group * ranksPerGroup + j ∈ ranks ∧ j < i) := by
    intro j hj
    rw [Nat.testBit_and, Nat.one_shiftLeft, Nat.testBit_two_pow_sub_one, Bool.and_eq_true,
      h.mask j (List.mem_range.1 hj), decide_eq_true_eq, decide_eq_true_eq]
  unfold Index.countOnes
  rw [List.countP_eq_length_filter, List.countP_eq_length_filter,
    ← List.length_map (s.cursor.group * ranksPerGroup + ·)]
  refine (List.Perm.length_eq ((List.perm_ext_iff_of_nodup ?_ ?_).2 fun rank => ?_))
  · exact (List.nodup_range.filter _).map fun _ _ heq => Nat.add_left_cancel heq
  · exact (hsorted.imp fun hlt => hlt.ne).filter _
  · rw [List.mem_map, List.mem_filter, Bool.and_eq_true, decide_eq_true_eq, decide_eq_true_eq]
    constructor
    · rintro ⟨j, hj, rfl⟩
      obtain ⟨hrange, hbit⟩ := List.mem_filter.1 hj
      obtain ⟨hmem, hlt⟩ := (hbits j hrange).1 hbit
      exact ⟨hmem, Nat.le_add_right _ _, Nat.add_lt_add_left hlt _⟩
    · rintro ⟨hmem, hle, hlt⟩
      refine ⟨rank - s.cursor.group * ranksPerGroup, ?_, Nat.add_sub_of_le hle⟩
      have hj : rank - s.cursor.group * ranksPerGroup < i := by omega
      have hrange := List.mem_range.2 (hj.trans hi)
      exact List.mem_filter.2 ⟨hrange, (hbits _ hrange).2
        ⟨by rwa [Nat.add_sub_of_le hle], hj⟩⟩

/-- The route of a selected rank is its place. -/
theorem Covers.route (h : Covers ranks s) (hsorted : ranks.Pairwise (· < ·)) {i : Nat}
    (hi : i < ranksPerGroup) (hmem : s.cursor.group * ranksPerGroup + i ∈ ranks) :
    s.firstRoute + Index.countOnes (s.mask &&& (1 <<< i - 1)) =
      ranks.idxOf (s.cursor.group * ranksPerGroup + i) := by
  rw [h.countOnes hsorted hi, h.firstRoute, idxOf_eq_countP hsorted hmem]
  generalize s.cursor.group * ranksPerGroup = base
  clear h hsorted hmem
  induction ranks with
  | nil => rfl
  | cons rank ranks ih =>
    simp only [List.countP_cons]
    rw [← ih]
    have hone : (if decide (rank < base) = true then 1 else 0) +
        (if (decide (base ≤ rank) && decide (rank < base + i)) = true then 1 else 0) =
          if decide (rank < base + i) = true then 1 else 0 := by
      simp only [Bool.and_eq_true, decide_eq_true_eq]
      split <;> split <;> split <;> omega
    omega

/-- The records that a scan reaches and picks are the selected ones of its group. -/
theorem Covers.pick (h : Covers ranks s) (hsorted : ranks.Pairwise (· < ·)) {e : ScalarEvent}
    {count : Nat} (hbase : s.cursor.group * ranksPerGroup ≤ e.rank) (hcount : e.rank < count) :
    (if s.reaches (min (s.cursor.group * ranksPerGroup + ranksPerGroup) count) e then
      s.pick (s.cursor.group * ranksPerGroup) e else none) =
        chosenIn ranks s.cursor.group e := by
  have hgroup : e.rank / ranksPerGroup = s.cursor.group ↔
      e.rank < s.cursor.group * ranksPerGroup + ranksPerGroup := by
    unfold ranksPerGroup at hbase ⊢
    omega
  have hreaches : s.reaches (min (s.cursor.group * ranksPerGroup + ranksPerGroup) count) e = true ↔
      e.rank / ranksPerGroup = s.cursor.group ∧ e.rank ≤ s.last := by
    unfold Selected.reaches
    rw [Bool.and_eq_true, decide_eq_true_eq, decide_eq_true_eq, hgroup, lt_min_iff,
      and_iff_left hcount]
  have hrank : s.cursor.group * ranksPerGroup + (e.rank - s.cursor.group * ranksPerGroup) =
      e.rank := Nat.add_sub_of_le hbase
  unfold chosenIn chosen
  by_cases hsame : e.rank / ranksPerGroup = s.cursor.group
  · have hlocal : e.rank - s.cursor.group * ranksPerGroup < ranksPerGroup := by
      have := hgroup.1 hsame
      omega
    have hmask := h.mask _ hlocal
    rw [hrank] at hmask
    rw [if_pos hsame]
    by_cases hmem : e.rank ∈ ranks
    · have hroute := h.route hsorted hlocal (hrank.symm ▸ hmem)
      rw [hrank] at hroute
      rw [if_pos (hreaches.2 ⟨hsame, h.last _ hmem hsame⟩), if_pos hmem, Selected.pick,
        if_pos (hmask.trans (decide_eq_true hmem)), hroute]
    · have hbit : ¬ s.mask.testBit (e.rank - s.cursor.group * ranksPerGroup) = true := by
        rw [hmask, decide_eq_true_eq]
        exact hmem
      rw [if_neg hmem, Selected.pick, if_neg hbit, ite_self]
  · rw [if_neg hsame, if_neg fun hr => hsame (hreaches.1 hr).1]

/-- A list lies from each of its records on. -/
theorem laid_from {e : ScalarEvent} {rest : List ScalarEvent} (before : List ScalarEvent) :
    ∀ {offset rank : Nat},
      Laid t active wire time cyclic offset rank (before ++ e :: rest) ends →
      ∃ offset' rank', Laid t active wire time cyclic offset' rank' (e :: rest) ends := by
  induction before with
  | nil => exact fun h => ⟨_, _, h⟩
  | cons first before ih =>
    intro offset rank h
    cases h with
    | scalar _ _ hrest => exact ih hrest
    | record _ _ _ _ _ hrest => exact ih hrest

/-- The position of a group in a list is that of its first record. -/
theorem positionOf_split {group frame : Nat} {p : Nat × Nat × Nat}
    (h : positionOf group frame records = some p) : ∃ before e rest,
      records = before ++ e :: rest ∧ e.rank / ranksPerGroup = group ∧
        (∀ e ∈ before, e.rank / ranksPerGroup ≠ group) ∧
        p = (frame, e.offset, e.rank % ranksPerGroup) := by
  obtain ⟨e, hfind, rfl⟩ := Option.map_eq_some_iff.1 h
  obtain ⟨hgroup, before, rest, heq, hbefore⟩ := List.find?_eq_some_iff_append.1 hfind
  refine ⟨before, e, rest, heq, beq_iff_eq.1 hgroup, fun e' he' hsame => ?_, rfl⟩
  have hne := hbefore e' he'
  rw [beq_iff_eq.2 hsame] at hne
  cases hne

/-- **A scan hands over the selected records of its group.** It starts at the first record that the
group has in the list. -/
theorem scan_laid (hlaid : Laid t active wire time cyclic offset 0 records ends)
    (hsorted : ranks.Pairwise (· < ·)) (hcovers : Covers ranks s) {frame : Nat}
    (hposition : positionOf s.cursor.group frame records =
      some (frame, s.cursor.offset, s.cursor.first)) {w : Wire} (hw : w.place = wire.place) :
    ∃ w', scan t active ⟨time, cyclic⟩ s w =
        (records.filterMap (chosenIn ranks s.cursor.group), .ok (), w') ∧
      w'.place = wire.place := by
  obtain ⟨before, e, rest, rfl, hgroup, hbefore, hp⟩ := positionOf_split hposition
  obtain ⟨hoffset, hfirst⟩ : s.cursor.offset = e.offset ∧ s.cursor.first = e.rank % ranksPerGroup :=
    ⟨congrArg (fun p => p.2.1) hp, congrArg (fun p => p.2.2) hp⟩
  have hrank : s.cursor.group * ranksPerGroup + s.cursor.first = e.rank := by
    rw [hfirst, ← hgroup, Nat.mul_comm]
    exact Nat.div_add_mod _ _
  -- The records before are of other groups, and the others are at higher ranks.
  have hnone : before.filterMap (chosenIn ranks s.cursor.group) = [] :=
    List.filterMap_eq_nil_iff.2 fun e' he' => if_neg (hbefore e' he')
  have hlies := hlaid.lies
  have hascends := (List.pairwise_append.1 (hlaid.ascends.imp And.left)).2.1
  have hafter : ∀ e' ∈ e :: rest, e.rank ≤ e'.rank ∧ e'.rank < active.length := by
    intro e' he'
    refine ⟨?_, (hlies e' (List.mem_append_right _ he')).active⟩
    rcases List.mem_cons.1 he' with rfl | he'
    · exact Nat.le_refl _
    · exact ((List.pairwise_cons.1 hascends).1 e' he').le
  have hactive := (hafter e (.head _)).2
  rw [List.filterMap_append, hnone, List.nil_append]
  unfold scan
  dsimp only
  rw [hrank]
  have hpick : ∀ e' ∈ e :: rest, (if s.reaches (min (s.cursor.group * ranksPerGroup + ranksPerGroup)
      active.length) e' then s.pick (s.cursor.group * ranksPerGroup) e' else none) =
        chosenIn ranks s.cursor.group e' := fun e' he' =>
    hcovers.pick hsorted (by have := (hafter e' he').1; omega) (hafter e' he').2
  by_cases hends : min (s.cursor.group * ranksPerGroup + ranksPerGroup) active.length ≤ e.rank ∨
      s.last < e.rank
  · -- No rank from here on is reached.
    rw [if_pos hends]
    refine ⟨w, ?_, hw⟩
    have hempty : (e :: rest).filterMap (chosenIn ranks s.cursor.group) = [] := by
      refine List.filterMap_eq_nil_iff.2 fun e' he' => ?_
      have hle := (hafter e' he').1
      rw [← hpick e' he', if_neg]
      unfold Selected.reaches
      rw [Bool.and_eq_true, decide_eq_true_eq, decide_eq_true_eq]
      omega
    rw [hempty]
  · rw [if_neg hends]
    obtain ⟨offset', rank', hlaid'⟩ := laid_from before hlaid
    have hreaches : s.reaches (min (s.cursor.group * ranksPerGroup + ranksPerGroup) active.length)
        e = true := by
      rw [reaches_iff (Nat.min_le_right _ _)]
      omega
    have hseek : Wire.Same (Wire.seekValue s.cursor.offset w).2 (wire.place e.offset) := by
      rw [← hw, hoffset]
      rfl
    have hturns : min (s.cursor.group * ranksPerGroup + ranksPerGroup) active.length ≤
        e.rank + ranksPerGroup := by omega
    obtain ⟨w', hrun, hplace⟩ :=
      scanLoop_laid (Nat.min_le_right _ _) hlaid' e rest ranksPerGroup _ rfl hreaches hturns hseek
    refine ⟨w', ?_, hplace⟩
    rw [hrun]
    refine congrArg (fun events => (events, Except.ok (), w')) ?_
    have htake : (e :: rest).takeWhile (s.reaches (min (s.cursor.group * ranksPerGroup +
        ranksPerGroup) active.length)) = (e :: rest).filter (s.reaches (min (s.cursor.group *
        ranksPerGroup + ranksPerGroup) active.length)) := by
      refine takeWhile_eq_filter (hascends.imp fun {a b} hlt hb => ?_)
      unfold Selected.reaches at hb ⊢
      rw [Bool.and_eq_true, decide_eq_true_eq, decide_eq_true_eq] at hb ⊢
      exact ⟨hlt.trans hb.1, hlt.le.trans hb.2⟩
    rw [htake, List.filterMap_filter]
    exact List.filterMap_congr hpick

end

end Index

end

end Ondas.Ghw
