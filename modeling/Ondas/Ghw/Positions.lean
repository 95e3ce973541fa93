import Ondas.Ghw.Budget
import Ondas.Ghw.Leb
import Ondas.Library.Runs

/-!
# The positions of the index

`advance` gives back what `push` recorded. A word is decoded to what was encoded (`decode_encode`).
The streams of a group hold its positions: the first frame number and runs of the differences to the
others, of which the last one is pending, and the differences of the offsets (`Group.Holds`). A
cursor stands before the positions that are still ahead of it (`Ahead`), and gives the next one.
-/

namespace Ondas.Ghw

open Library

namespace Index

/-! ## Words -/

/-- Setting the continuation bit keeps the low seven bits. -/
theorem more_bits (b : UInt8) :
    (b ||| 0x80).toNat % 128 = b.toNat % 128 ∧ 128 ≤ (b ||| 0x80).toNat :=
  forall_byte (p := fun b => (b ||| 0x80).toNat % 128 = b.toNat % 128 ∧ 128 ≤ (b ||| 0x80).toNat)
    (by decide +kernel) b

/-- The loops of `encode` and `decode` turn together. -/
theorem decodeLoop_encodeLoop {bytes rest : List UInt8} (left : Nat) :
    ∀ group position found value, group + left = 9 → value < 2 ^ (7 * left + 1) →
      found < 2 ^ (7 * group) → bytes.drop position = encodeLoop left value ++ rest →
      decodeLoop bytes (left + 1) group position found =
        some (found + 2 ^ (7 * group) * value, position + (encodeLoop left value).length) := by
  induction left with
  | zero =>
    intro group position found value hgroup hvalue hfound hbytes
    obtain rfl : group = 9 := hgroup
    have hbyte : bytes[position]? = some (UInt8.ofNat value) := by
      rw [← Nat.add_zero position, ← List.getElem?_drop, hbytes]
      rfl
    have hvalue' : value = 0 ∨ value = 1 := by
      rw [Nat.mul_zero] at hvalue
      omega
    unfold decodeLoop
    rw [hbyte]
    rcases hvalue' with rfl | rfl
    · exact congrArg some (Prod.ext (Nat.or_zero found) rfl)
    · exact congrArg some (Prod.ext (or_group hfound 1) rfl)
  | succ left ih =>
    intro group position found value hgroup hvalue hfound hbytes
    have hof : (UInt8.ofNat value).toNat % 128 = value % 128 := by
      rw [UInt8.toNat_ofNat']
      exact Nat.mod_mod_of_dvd value ⟨2, rfl⟩
    -- What is added stays in 64 bits.
    have hadd : ∀ byte : UInt8, byte.toNat % 128 = value % 128 →
        found ||| (((byte &&& 0x7f).toNat <<< (7 * group)) % 2 ^ 64) =
          found + 2 ^ (7 * group) * (value % 128) := by
      intro byte hbyte
      have hbits : (byte &&& 0x7f).toNat <<< (7 * group) < 2 ^ 64 := by
        have hgroup' : 7 * group + 7 ≤ 64 := by omega
        have hlt : (byte &&& 0x7f).toNat < 2 ^ 7 := by
          rw [group_bits]
          exact Nat.mod_lt _ (by decide)
        rw [Nat.shiftLeft_eq]
        refine (Nat.mul_lt_mul_of_pos_right hlt (Nat.two_pow_pos _)).trans_le ?_
        rw [← Nat.pow_add, Nat.add_comm]
        exact Nat.pow_le_pow_right (by decide) hgroup'
      rw [Nat.mod_eq_of_lt hbits, or_group hfound, group_bits, hbyte]
    have hhead : ∀ {byte : UInt8} {more : List UInt8}, bytes.drop position = byte :: more →
        bytes[position]? = some byte ∧ bytes.drop (position + 1) = more := by
      intro byte more h
      refine ⟨?_, ?_⟩
      · rw [← Nat.add_zero position, ← List.getElem?_drop, h]
        rfl
      · rw [← List.drop_drop, h]
        rfl
    unfold decodeLoop
    rw [encodeLoop] at hbytes ⊢
    by_cases hmore : 0x80 ≤ value
    · rw [if_pos hmore] at hbytes ⊢
      obtain ⟨hbyte, hrest⟩ := hhead hbytes
      obtain ⟨hlow, hhigh⟩ := more_bits (UInt8.ofNat value)
      have hcontinues : ¬ (UInt8.ofNat value ||| 0x80) &&& 0x80 = 0 :=
        fun h => absurd ((group_continues _).1 h) (Nat.not_lt.2 hhigh)
      have hvalue' : value >>> 7 < 2 ^ (7 * left + 1) := by
        rw [Nat.shiftRight_eq_div_pow]
        refine Nat.div_lt_of_lt_mul (hvalue.trans_eq ?_)
        rw [← Nat.pow_add]
        congr 1
        omega
      have hfound' : found + 2 ^ (7 * group) * (value % 128) < 2 ^ (7 * (group + 1)) := by
        have hlt : value % 128 + 1 ≤ 128 := Nat.mod_lt _ (by decide)
        calc found + 2 ^ (7 * group) * (value % 128)
            < 2 ^ (7 * group) * (value % 128 + 1) := by
              rw [Nat.mul_succ, Nat.add_comm]
              exact Nat.add_lt_add_left hfound _
          _ ≤ 2 ^ (7 * group) * 128 := Nat.mul_le_mul_left _ hlt
          _ = 2 ^ (7 * (group + 1)) := (Nat.pow_add 2 (7 * group) 7).symm
      rw [hbyte]
      dsimp only
      rw [hadd _ (hlow.trans hof), if_neg hcontinues,
        ih (group + 1) (position + 1) _ _ (by omega) hvalue' hfound' hrest]
      refine congrArg some (Prod.ext ?_ ?_)
      · show found + 2 ^ (7 * group) * (value % 128) + 2 ^ (7 * (group + 1)) * (value >>> 7) = _
        rw [Nat.shiftRight_eq_div_pow, Nat.mul_succ, Nat.pow_add, Nat.add_assoc, Nat.mul_assoc,
          ← Nat.mul_add, Nat.mod_add_div]
      · exact Nat.add_right_comm position 1 _
    · rw [if_neg hmore] at hbytes ⊢
      obtain ⟨hbyte, -⟩ := hhead hbytes
      have hsmall : value < 128 := Nat.lt_of_not_le hmore
      have hends : UInt8.ofNat value &&& 0x80 = 0 := by
        refine (group_continues _).2 ?_
        rw [UInt8.toNat_ofNat', Nat.mod_eq_of_lt (hsmall.trans (by decide))]
        exact hsmall
      rw [hbyte]
      dsimp only
      rw [hadd _ hof, if_pos hends, Nat.mod_eq_of_lt hsmall]
      rfl

/-- **A word is decoded to what was encoded**, and the position is after it. -/
theorem decode_encode {bytes rest : List UInt8} {position value : Nat} (hvalue : value < 2 ^ 64)
    (h : bytes.drop position = encode value ++ rest) :
    decode bytes position = some (value, position + (encode value).length) := by
  unfold decode
  rw [decodeLoop_encodeLoop 9 0 position 0 value rfl hvalue (Nat.two_pow_pos _) h, Nat.zero_add,
    Nat.mul_zero, Nat.pow_zero, Nat.one_mul]
  rfl

/-! ## The streams of a group -/

/-- The bytes of runs. -/
def runBytes (runs : List (Nat × Nat)) : List UInt8 :=
  runs.flatMap fun run => encode run.1 ++ encode run.2

/-- The bytes of positions, each a frame number, an offset and a rank in the group. -/
def positionBytes : Nat → List (Nat × Nat × Nat) → List UInt8
  | _, [] => []
  | last, p :: rest => (encode (p.2.1 - last) ++ encode p.2.2) ++ positionBytes p.2.1 rest

/-- The offset of the last position. -/
def offsetOf (positions : List (Nat × Nat × Nat)) (start : Nat) : Nat :=
  (positions.getLast?.map fun p => p.2.1).getD start

/-- Positions are appended to a stream by their distance from the last one, whatever came before. -/
theorem positionBytes_append (p : Nat × Nat × Nat) (positions : List (Nat × Nat × Nat)) :
    ∀ last, positionBytes last (positions ++ [p]) =
      positionBytes last positions ++
        (encode (p.2.1 - offsetOf positions last) ++ encode p.2.2) := by
  induction positions with
  | nil => exact fun last => List.append_nil _
  | cons q rest ih =>
    intro last
    rw [List.cons_append, positionBytes, ih, positionBytes,
      List.append_assoc _ (positionBytes _ rest)]
    cases rest <;> rfl

theorem runBytes_append (runs more : List (Nat × Nat)) :
    runBytes (runs ++ more) = runBytes runs ++ runBytes more := List.flatMap_append

namespace Group

/-- The run that is not written yet. -/
def pending (s : Group) : List (Nat × Nat) :=
  if s.pendingRun = 0 then [] else [(s.pendingDelta, s.pendingRun)]

/-- A group that has a position and more. -/
structure HoldsFrom (s : Group) (p : Nat × Nat × Nat) (rest : List (Nat × Nat × Nat))
    (runs : List (Nat × Nat)) : Prop where
  ids : s.ids = encode p.1 ++ runBytes runs
  offs : s.offs = positionBytes 0 (p :: rest)
  frames : differences p.1 (rest.map Prod.fst) = expand (runs ++ s.pending)
  positive : ∀ run ∈ runs, 0 < run.2
  lastFrame : s.lastFrame = (rest.map Prod.fst).getLast?.getD p.1
  lastOffset : s.lastOffset = offsetOf (p :: rest) 0
  idle : s.pendingRun = 0 → s.pendingDelta = 0

/-- The positions of a group. -/
def Holds (s : Group) : List (Nat × Nat × Nat) → Prop
  | [] => s = initial
  | p :: rest => ∃ runs, s.HoldsFrom p rest runs

section
variable {s : Group} {p : Nat × Nat × Nat} {rest positions : List (Nat × Nat × Nat)}
  {runs : List (Nat × Nat)}

/-- Flushing writes the pending run behind the frame numbers. -/
@[simp] theorem flush_ids (s : Group) : s.flush.ids = s.ids ++ runBytes s.pending := by
  unfold flush pending
  split
  · exact (List.append_nil _).symm
  · rw [runBytes, List.flatMap_singleton]

@[simp] theorem flush_offs (s : Group) : s.flush.offs = s.offs := by
  unfold flush
  split <;> rfl

/-- A pending run counts at least one frame. -/
theorem pending_positive (s : Group) : ∀ run ∈ s.pending, 0 < run.2 := by
  intro run hrun
  unfold pending at hrun
  split at hrun
  · cases hrun
  · next hne =>
    rw [List.mem_singleton.1 hrun]
    exact Nat.pos_of_ne_zero hne

/-- The last frame number is that of a position. -/
theorem HoldsFrom.lastFrame_mem (h : s.HoldsFrom p rest runs) :
    ∃ q ∈ p :: rest, q.1 = s.lastFrame := by
  rw [h.lastFrame]
  cases hlast : (rest.map Prod.fst).getLast? with
  | none => exact ⟨p, .head _, rfl⟩
  | some frame =>
    obtain ⟨q, hq, rfl⟩ := List.mem_map.1 (List.mem_of_getLast? hlast)
    exact ⟨q, .tail _ hq, rfl⟩

/-- The last offset is that of a position. -/
theorem HoldsFrom.lastOffset_mem (h : s.HoldsFrom p rest runs) :
    ∃ q ∈ p :: rest, q.2.1 = s.lastOffset := by
  rw [h.lastOffset, offsetOf]
  have hlast := List.getLast?_eq_some_getLast (List.cons_ne_nil p rest)
  rw [hlast]
  exact ⟨_, List.getLast_mem _, rfl⟩

/-- **A position is recorded**: its frame is after those of the group and its offset is not
before. -/
theorem Holds.record {frame offset : Nat} (h : s.Holds positions)
    (hframe : ∀ q ∈ positions, q.1 < frame) (hno : ∀ q ∈ positions, q.1 ≠ noFrame) (first : Nat) :
    (s.record frame offset first).Holds (positions ++ [(frame, offset, first)]) := by
  cases positions with
  | nil =>
    cases h
    exact ⟨[], ⟨(List.append_nil _).symm, (List.append_nil _).symm, rfl, nofun, rfl, rfl,
      fun _ => rfl⟩⟩
  | cons p rest =>
    obtain ⟨runs, h⟩ := h
    obtain ⟨q, hq, hlast⟩ := h.lastFrame_mem
    have hnext : s.lastFrame ≠ noFrame := hlast ▸ hno q hq
    have hlt : s.lastFrame < frame := hlast ▸ hframe q hq
    have hoffs : s.offs ++ (encode (offset - s.lastOffset) ++ encode first) =
        positionBytes 0 (p :: (rest ++ [(frame, offset, first)])) := by
      rw [← List.cons_append, positionBytes_append, h.offs, h.lastOffset]
    have hframes : differences p.1 ((rest ++ [(frame, offset, first)]).map Prod.fst) =
        expand (runs ++ s.pending) ++ [frame - s.lastFrame] := by
      rw [List.map_append, List.map_singleton, differences_append, h.frames, h.lastFrame]
    have hlastFrame : frame =
        ((rest ++ [(frame, offset, first)]).map Prod.fst).getLast?.getD p.1 := by
      rw [List.map_append, List.map_singleton, List.getLast?_append]
      rfl
    have hlastOffset : offset = offsetOf (p :: (rest ++ [(frame, offset, first)])) 0 := by
      rw [offsetOf, ← List.cons_append, List.getLast?_append]
      rfl
    unfold Group.record recordFrame
    rw [if_neg hnext]
    by_cases hsame : frame - s.lastFrame = s.pendingDelta
    · -- The run that is pending takes the frame.
      rw [if_pos hsame]
      have hrun : s.pendingRun ≠ 0 := fun hzero => by
        have hdelta := h.idle hzero
        omega
      refine ⟨runs, ⟨h.ids ▸ List.append_nil _, hoffs, ?_, h.positive, hlastFrame, hlastOffset,
        fun hzero => absurd hzero (Nat.succ_ne_zero _)⟩⟩
      refine hframes.trans ?_
      show _ = expand (runs ++ if s.pendingRun + 1 = 0 then [] else
        [(s.pendingDelta, s.pendingRun + 1)])
      rw [if_neg (Nat.succ_ne_zero _), pending, if_neg hrun, expand_append, expand_append,
        expand_singleton, expand_singleton, hsame, List.replicate_succ', List.append_assoc]
    · -- It is written, and a new one begins.
      rw [if_neg hsame]
      refine ⟨runs ++ s.pending,
        ⟨?_, ?_, ?_, ?_, hlastFrame, hlastOffset, fun hzero => nomatch hzero⟩⟩
      · show s.flush.ids ++ [] = _
        rw [List.append_nil, flush_ids, h.ids, runBytes_append, List.append_assoc]
      · show s.flush.offs ++ (encode (offset - s.flush.lastOffset) ++ encode first) = _
        rw [flush_offs, flush_lastOffset]
        exact hoffs
      · exact hframes.trans (expand_append (runs ++ s.pending) [(frame - s.lastFrame, 1)]).symm
      · exact List.forall_mem_append.2 ⟨h.positive, s.pending_positive⟩

/-- The numbers of the runs are below what the frame numbers are below. -/
theorem HoldsFrom.run_lt (h : s.HoldsFrom p rest runs)
    (hascend : ((p :: rest).map Prod.fst).Pairwise (· < ·)) {bound : Nat}
    (hbound : ∀ q ∈ p :: rest, q.1 < bound) :
    ∀ run ∈ runs ++ s.pending, run.1 < bound ∧ run.2 < bound := by
  intro run hrun
  have hpos : 0 < run.2 :=
    (List.mem_append.1 hrun).elim (h.positive run) (s.pending_positive run)
  constructor
  · have hmem := mem_expand hrun hpos
    rw [← h.frames] at hmem
    obtain ⟨frame, hframe, hle⟩ := exists_le_of_mem_differences _ hmem
    obtain ⟨q, hq, rfl⟩ := List.mem_map.1 hframe
    exact hle.trans_lt (hbound q (.tail _ hq))
  · have hlength := run_le_length hrun
    rw [← h.frames, length_differences] at hlength
    have hall : ((p :: rest).map Prod.fst).length ≤ bound :=
      length_le_of_ascending hascend fun frame hframe => by
        obtain ⟨q, hq, rfl⟩ := List.mem_map.1 hframe
        exact hbound q hq
    exact (Nat.lt_succ_of_le hlength).trans_le hall

/-- The run that is pending fits into words. -/
theorem Holds.small (h : s.Holds positions) (hascend : (positions.map Prod.fst).Pairwise (· < ·))
    {bound : Nat} (hbound : ∀ q ∈ positions, q.1 < bound) (hwords : bound < 2 ^ 32) : s.Small := by
  cases positions with
  | nil =>
    cases h
    exact ⟨by decide, by decide⟩
  | cons p rest =>
    obtain ⟨runs, h⟩ := h
    by_cases hzero : s.pendingRun = 0
    · constructor
      · rw [h.idle hzero]
        decide
      · rw [hzero]
        decide
    · have hmem : (s.pendingDelta, s.pendingRun) ∈ runs ++ s.pending := by
        rw [pending, if_neg hzero]
        exact List.mem_append_right _ (.head _)
      obtain ⟨hdelta, hrun⟩ := h.run_lt hascend hbound _ hmem
      exact ⟨hdelta.trans hwords, (Nat.succ_le_of_lt hrun).trans_lt hwords⟩

/-- A group may get a position that comes after its own. -/
theorem Holds.ready (h : s.Holds positions) (hascend : (positions.map Prod.fst).Pairwise (· < ·))
    {frame offset : Nat} (hframe : ∀ q ∈ positions, q.1 < frame)
    (hoffset : ∀ q ∈ positions, q.2.1 ≤ offset) (hwords : frame < 2 ^ 32) :
    s.Ready frame offset where
  toSmall := h.small hascend hframe hwords
  frame := by
    cases positions with
    | nil =>
      cases h
      exact .inl rfl
    | cons p rest =>
      obtain ⟨runs, h⟩ := h
      obtain ⟨q, hq, hlast⟩ := h.lastFrame_mem
      exact .inr (hlast ▸ (hframe q hq).le)
  offset := by
    cases positions with
    | nil =>
      cases h
      exact Nat.zero_le _
    | cons p rest =>
      obtain ⟨runs, h⟩ := h
      obtain ⟨q, hq, hlast⟩ := h.lastOffset_mem
      exact hlast ▸ hoffset q hq

end

end Group

/-! ## The cursor -/

theorem encode_ne_nil (value : Nat) : encode value ≠ [] := by
  unfold encode encodeLoop
  split <;> exact List.cons_ne_nil _ _

/-- A word with bytes after it, at a position of a stream. -/
theorem decode_drop {bytes rest : List UInt8} {position value : Nat} (hvalue : value < 2 ^ 64)
    (h : bytes.drop position = encode value ++ rest) :
    ∃ position', decode bytes position = some (value, position') ∧ bytes.drop position' = rest ∧
      position' ≤ bytes.length := by
  refine ⟨_, decode_encode hvalue h, ?_, ?_⟩
  · rw [← List.drop_drop, h, List.drop_left]
  · have hlength := congrArg List.length h
    have hne := List.length_pos_of_ne_nil (encode_ne_nil value)
    rw [List.length_drop, List.length_append] at hlength
    omega

/-- What is ahead of a cursor that is started, in the streams of its group. -/
structure Ahead (ids offs : List UInt8) (c : Cursor) (positions : List (Nat × Nat × Nat))
    (runs : List (Nat × Nat)) : Prop where
  started : c.started = true
  restIds : ids.drop c.ids = runBytes runs
  within : c.ids ≤ ids.length
  restOffs : offs.drop c.offs = positionBytes c.offset positions
  frames : differences c.frame (positions.map Prod.fst) =
    List.replicate c.remaining c.delta ++ expand runs
  runs : ∀ run ∈ runs, 0 < run.2 ∧ run.1 < 2 ^ 32 ∧ run.2 < 2 ^ 32
  after : ∀ q ∈ positions, c.frame < q.1 ∧ c.offset ≤ q.2.1

/-- A cursor that has the frame number of a position, with the place of its frame numbers. -/
structure Framed (ids offs : List UInt8) (c : Cursor) (place : Nat) (p : Nat × Nat × Nat)
    (positions : List (Nat × Nat × Nat)) (runs : List (Nat × Nat)) : Prop where
  started : c.started = true
  frame : c.frame = p.1
  restIds : ids.drop place = runBytes runs
  within : place ≤ ids.length
  restOffs : offs.drop c.offs = positionBytes c.offset (p :: positions)
  offset : c.offset ≤ p.2.1
  frames : differences p.1 (positions.map Prod.fst) =
    List.replicate c.remaining c.delta ++ expand runs
  runs : ∀ run ∈ runs, 0 < run.2 ∧ run.1 < 2 ^ 32 ∧ run.2 < 2 ^ 32

/-- Positions whose frames ascend, whose offsets do not descend and whose numbers are words. -/
structure Sound (positions : List (Nat × Nat × Nat)) : Prop where
  ascends : positions.Pairwise fun p q => p.1 < q.1 ∧ p.2.1 ≤ q.2.1
  words : ∀ p ∈ positions, p.1 < 2 ^ 32 ∧ p.2.1 < 2 ^ 64 ∧ p.2.2 < 2 ^ 64

section
variable {checked : Bool} {ids offs : List UInt8} {c : Cursor} {p : Nat × Nat × Nat}
  {positions : List (Nat × Nat × Nat)} {runs : List (Nat × Nat)}

/-- Frames are over when nothing is ahead. -/
theorem Ahead.nextFrame_nil (h : Ahead ids offs c [] runs) :
    nextFrame checked ids c = .ok none := by
  obtain ⟨hremaining, hruns⟩ := List.append_eq_nil_iff.1 h.frames.symm
  have hzero : c.remaining = 0 := (List.replicate_eq_nil_iff _).1 hremaining
  have hnil : runs = [] := by
    refine List.eq_nil_iff_forall_not_mem.2 fun run hrun => ?_
    have hmem := mem_expand hrun (h.runs run hrun).1
    rw [hruns] at hmem
    cases hmem
  have hend : ids.length ≤ c.ids := List.drop_eq_nil_iff.1 (h.restIds.trans (by rw [hnil]; rfl))
  unfold nextFrame
  rw [if_pos h.started, if_neg (by rw [hzero]; exact Nat.lt_irrefl 0), if_pos hend]
  rfl

/-- The next frame number is that of the next position. -/
theorem Ahead.nextFrame_cons (checked : Bool) (h : Ahead ids offs c (p :: positions) runs)
    (hp : p.1 < 2 ^ 32) :
    ∃ c' place runs', nextFrame checked ids c = .ok (some (c', place)) ∧ c'.group = c.group ∧
      Framed ids offs c' place p positions runs' := by
  have hframes : (p.1 - c.frame) :: differences p.1 (positions.map Prod.fst) =
      List.replicate c.remaining c.delta ++ expand runs := h.frames
  obtain ⟨hafter, hoffset⟩ := h.after p (.head _)
  unfold nextFrame
  rw [if_pos h.started]
  cases hremaining : c.remaining with
  | succ left =>
    -- A run goes on.
    rw [hremaining, List.replicate_succ, List.cons_append] at hframes
    obtain ⟨hdelta, hrest⟩ := List.cons.inj hframes
    have hadd : add checked 32 c.frame c.delta = .ok p.1 := by
      have hsum : c.frame + c.delta = p.1 := by omega
      rw [add, hsum, if_pos hp]
    rw [if_pos (Nat.succ_pos left), hadd]
    exact ⟨_, _, runs, rfl, rfl,
      ⟨h.started, rfl, h.restIds, h.within, h.restOffs, hoffset, hrest, h.runs⟩⟩
  | zero =>
    rw [hremaining] at hframes
    cases runs with
    | nil => cases hframes
    | cons run runs =>
      -- A run begins.
      obtain ⟨delta, count⟩ := run
      obtain ⟨hpos, hdeltaWord, hcountWord⟩ := h.runs _ (.head _)
      obtain ⟨left, rfl⟩ : ∃ left, count = left + 1 := ⟨count - 1, (Nat.sub_add_cancel hpos).symm⟩
      obtain ⟨hdelta, hrest⟩ := List.cons.inj (hframes.trans (expand_cons delta left runs))
      have hadd : add checked 32 c.frame delta = .ok p.1 := by
        have hsum : c.frame + delta = p.1 := by omega
        rw [add, hsum, if_pos hp]
      have hbytes : ids.drop c.ids = encode delta ++ (encode (left + 1) ++ runBytes runs) :=
        h.restIds.trans (List.append_assoc _ _ _)
      have hmore : ¬ ids.length ≤ c.ids := fun hle =>
        encode_ne_nil delta (List.append_eq_nil_iff.1
          (hbytes.symm.trans (List.drop_eq_nil_iff.2 hle))).1
      obtain ⟨_, hdecode, hdrop, -⟩ := decode_drop (hdeltaWord.trans (by decide)) hbytes
      obtain ⟨place, hdecode', hdrop', hwithin⟩ := decode_drop (hcountWord.trans (by decide)) hdrop
      rw [if_neg (Nat.lt_irrefl 0), if_neg hmore, hdecode]
      dsimp only
      rw [hdecode']
      dsimp only
      rw [if_neg (fun hlarge => hlarge.elim (Nat.not_le.2 hdeltaWord) (Nat.not_le.2 hcountWord)),
        if_neg (Nat.succ_ne_zero left), hadd]
      exact ⟨_, place, runs, rfl, rfl, ⟨h.started, rfl, hdrop', hwithin, h.restOffs, hoffset, hrest,
        fun run hrun => h.runs run (.tail _ hrun)⟩⟩

/-- The next offset and rank are those of the position. -/
theorem Framed.nextPosition (checked : Bool) {place : Nat}
    (h : Framed ids offs c place p positions runs)
    (hp : p.2.1 < 2 ^ 64 ∧ p.2.2 < 2 ^ 64) (hwords : offs.length < 2 ^ 32) :
    ∃ position, nextPosition checked offs { c with ids := place } =
      .ok (some { c with ids := place, offset := p.2.1, first := p.2.2, offs := position }) ∧
        offs.drop position = positionBytes p.2.1 positions := by
  have hbytes : offs.drop c.offs =
      encode (p.2.1 - c.offset) ++ (encode p.2.2 ++ positionBytes p.2.1 positions) :=
    h.restOffs.trans (List.append_assoc _ _ _)
  have hmore : ¬ offs.length ≤ c.offs := fun hle =>
    encode_ne_nil _ (List.append_eq_nil_iff.1 (hbytes.symm.trans (List.drop_eq_nil_iff.2 hle))).1
  obtain ⟨_, hdecode, hdrop, -⟩ := decode_drop ((Nat.sub_le _ _).trans_lt hp.1) hbytes
  obtain ⟨position, hdecode', hdrop', hwithin⟩ := decode_drop hp.2 hdrop
  have hadd : add checked 64 c.offset (p.2.1 - c.offset) = .ok p.2.1 := by
    rw [add, Nat.add_sub_cancel' h.offset, if_pos hp.1]
  have hnarrow : narrow position = .ok position := if_pos (hwithin.trans_lt hwords)
  unfold Index.nextPosition
  dsimp only
  rw [if_neg hmore, hdecode]
  dsimp only
  rw [hdecode']
  dsimp only
  rw [hadd, hnarrow]
  exact ⟨position, rfl, hdrop'⟩

variable {x : Index} {g : Nat}

/-- The frame numbers of a stored group can be looked up. -/
theorem Stored.item_ids (h : x.Stored g ids offs) :
    ∃ v, item x.ids.items g = .ok v ∧ v.items = ids := by
  obtain ⟨⟨v, hv, hitems⟩, -⟩ := h
  exact ⟨v, by rw [item, hv], hitems⟩

/-- So can its positions. -/
theorem Stored.item_offs (h : x.Stored g ids offs) :
    ∃ v, item x.offs.items g = .ok v ∧ v.items = offs := by
  obtain ⟨-, v, hv, hitems⟩ := h
  exact ⟨v, by rw [item, hv], hitems⟩

/-- A cursor that has the frame number of a position gives it and stands before the others. -/
theorem Framed.advance {c' : Cursor} {place : Nat} (h : Framed ids offs c' place p positions runs)
    (hnext : nextFrame checked ids c = .ok (some (c', place))) (hgroup : c'.group = c.group)
    (hstored : x.Stored c.group ids offs) (hsound : Sound (p :: positions))
    (hids : ids.length < 2 ^ 32) (hoffs : offs.length < 2 ^ 32) :
    ∃ c'', x.advance checked c = .ok (some c'') ∧ (c''.frame, c''.offset, c''.first) = p ∧
      c''.group = c.group ∧ Ahead ids offs c'' positions runs := by
  obtain ⟨v, hv, rfl⟩ := hstored.item_ids
  obtain ⟨w, hw, rfl⟩ := hstored.item_offs
  obtain ⟨last, hposition, hlast⟩ := h.nextPosition checked (hsound.words p (.head _)).2 hoffs
  have hnarrow : narrow place = .ok place := if_pos (h.within.trans_lt hids)
  have hw' : item x.offs.items c'.group = .ok w := by rw [hgroup, hw]
  refine ⟨{ c' with ids := place, offset := p.2.1, first := p.2.2, offs := last }, ?_,
    Prod.ext h.frame rfl, hgroup, h.started, h.restIds, h.within, hlast, ?_, h.runs, ?_⟩
  · unfold Index.advance
    rw [hv]
    show (nextFrame checked v.items c >>= _) = _
    rw [hnext]
    show (narrow place >>= _) = _
    rw [hnarrow]
    show (item x.offs.items c'.group >>= _) = _
    rw [hw']
    exact hposition
  · show differences c'.frame _ = _
    rw [h.frame, h.frames]
  · intro q hq
    show c'.frame < q.1 ∧ p.2.1 ≤ q.2.1
    rw [h.frame]
    exact (List.pairwise_cons.1 hsound.ascends).1 q hq

/-- Nothing is given when nothing is ahead. -/
theorem Ahead.advance_nil (h : Ahead ids offs c [] runs) (hstored : x.Stored c.group ids offs) :
    x.advance checked c = .ok none := by
  obtain ⟨v, hv, rfl⟩ := hstored.item_ids
  unfold Index.advance
  rw [hv]
  show (nextFrame checked v.items c >>= _) = _
  rw [h.nextFrame_nil]
  rfl

/-- What is ahead of a cursor is what it gives. -/
theorem Ahead.positionsFrom (positions : List (Nat × Nat × Nat)) :
    ∀ (c : Cursor) (runs : List (Nat × Nat)),
    Ahead ids offs c positions runs → x.Stored c.group ids offs → Sound positions →
    ids.length < 2 ^ 32 → offs.length < 2 ^ 32 → ∀ calls, positions.length < calls →
    x.positionsFrom checked calls c = .ok (some positions) := by
  induction positions with
  | nil =>
    intro c runs h hstored _ _ _ calls hcalls
    obtain ⟨calls, rfl⟩ : ∃ n, calls = n + 1 := ⟨calls - 1, (Nat.sub_add_cancel hcalls).symm⟩
    rw [Index.positionsFrom, h.advance_nil hstored]
    rfl
  | cons p positions ih =>
    intro c runs h hstored hsound hids hoffs calls hcalls
    obtain ⟨calls, rfl⟩ : ∃ n, calls = n + 1 := ⟨calls - 1, by omega⟩
    obtain ⟨c', place, runs', hnext, hgroup, hframed⟩ :=
      h.nextFrame_cons checked (hsound.words p (.head _)).1
    obtain ⟨c'', hadvance, hgives, hgroup', hrest⟩ :=
      hframed.advance hnext hgroup hstored hsound hids hoffs
    have hsound' : Sound positions :=
      ⟨(List.pairwise_cons.1 hsound.ascends).2, fun q hq => hsound.words q (.tail _ hq)⟩
    have hcalls' : positions.length < calls := Nat.lt_of_succ_lt_succ hcalls
    rw [Index.positionsFrom, hadvance]
    show (Index.positionsFrom checked x calls c'' >>= _) = _
    rw [ih c'' runs' hrest (hgroup' ▸ hstored) hsound' hids hoffs calls hcalls']
    exact congrArg (fun p => Except.ok (some (p :: positions))) hgives

/-- The streams of a group that is complete. -/
def Complete (ids offs : List UInt8) : List (Nat × Nat × Nat) → Prop
  | [] => ids = []
  | p :: rest => ∃ runs, ids = encode p.1 ++ runBytes runs ∧ offs = positionBytes 0 (p :: rest) ∧
    differences p.1 (rest.map Prod.fst) = expand runs ∧
      ∀ run ∈ runs, 0 < run.2 ∧ run.1 < 2 ^ 32 ∧ run.2 < 2 ^ 32

/-- A group without a run that is pending is complete. -/
theorem Group.Holds.complete {s : Group} (h : s.Holds positions)
    (hascend : (positions.map Prod.fst).Pairwise (· < ·)) {bound : Nat}
    (hbound : ∀ q ∈ positions, q.1 < bound) (hwords : bound < 2 ^ 32) :
    Complete s.flush.ids s.flush.offs positions := by
  cases positions with
  | nil =>
    cases h
    rfl
  | cons p rest =>
    obtain ⟨runs, h⟩ := h
    refine ⟨runs ++ s.pending, ?_, ?_, h.frames, fun run hrun => ⟨?_, ?_⟩⟩
    · rw [Group.flush_ids, h.ids, runBytes_append, List.append_assoc]
    · rw [Group.flush_offs, h.offs]
    · exact (List.mem_append.1 hrun).elim (h.positive run) (s.pending_positive run)
    · obtain ⟨hdelta, hcount⟩ := h.run_lt hascend hbound run hrun
      exact ⟨hdelta.trans hwords, hcount.trans hwords⟩

/-- **A cursor gives the positions of its group**, in their order, and then nothing. -/
theorem Complete.positionsFrom (h : Complete ids offs positions) (hstored : x.Stored g ids offs)
    (hsound : Sound positions) (hids : ids.length < 2 ^ 32) (hoffs : offs.length < 2 ^ 32)
    {calls : Nat} (hcalls : positions.length < calls) :
    x.positionsFrom checked calls (.fresh g) = .ok (some positions) := by
  obtain ⟨calls, rfl⟩ : ∃ n, calls = n + 1 := ⟨calls - 1, by omega⟩
  obtain ⟨v, hv, rfl⟩ := hstored.item_ids
  cases positions with
  | nil =>
    have hnone : nextFrame checked v.items (.fresh g) = .ok none := by
      rw [(show v.items = [] from h)]
      rfl
    rw [Index.positionsFrom, Index.advance]
    show (item x.ids.items g >>= _) >>= _ = _
    rw [hv]
    show (nextFrame checked v.items (.fresh g) >>= _) >>= _ = _
    rw [hnone]
    rfl
  | cons p rest =>
    obtain ⟨runs, hbytes, hoffBytes, hframes, hruns⟩ := h
    have hword := (hsound.words p (.head _)).1
    have hbytes' : v.items.drop 0 = encode p.1 ++ runBytes runs := hbytes
    obtain ⟨place, hdecode, hdrop, hwithin⟩ := decode_drop (hword.trans (by decide)) hbytes'
    have hnext : nextFrame checked v.items (.fresh g) =
        .ok (some ({ Cursor.fresh g with frame := p.1, started := true }, place)) := by
      unfold nextFrame
      have hdecode' : decode v.items (Cursor.fresh g).ids = some (p.1, place) := hdecode
      rw [if_neg (by exact Bool.false_ne_true), hdecode']
      exact if_neg (Nat.not_le.2 hword)
    have hframed : Framed v.items offs
        { Cursor.fresh g with frame := p.1, started := true } place p rest
        runs := ⟨rfl, rfl, hdrop, hwithin, hoffBytes, Nat.zero_le _, hframes, hruns⟩
    obtain ⟨c', hadvance, hgives, hgroup, hrest⟩ :=
      hframed.advance hnext rfl hstored hsound hids hoffs
    have hsound' : Sound rest :=
      ⟨(List.pairwise_cons.1 hsound.ascends).2, fun q hq => hsound.words q (.tail _ hq)⟩
    rw [Index.positionsFrom, hadvance]
    show (Index.positionsFrom checked x calls c' >>= _) = _
    rw [hrest.positionsFrom rest c' runs (hgroup ▸ hstored) hsound' hids hoffs calls
      (Nat.lt_of_succ_lt_succ hcalls)]
    exact congrArg (fun p => Except.ok (some (p :: rest))) hgives

end

end Index

end Ondas.Ghw
