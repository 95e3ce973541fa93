import Ondas.Query.Composition

/-!
# Slices

A slice is a handle that selects some bits of its base. Its bounds are counted from the right end of
the current value (`Signal.slice`); a declaration range maps HDL indices of either direction to such
bounds (`BitRange.slice`). Both write their arithmetic in machine words, so a sum or a cast that
does not fit would wrap; for a valid handle none does (`slices_compose`).
-/

namespace Ondas

open Query

/-- The original index range of an HDL declaration. -/
structure BitRange where
  msb : Int64
  lsb : Int64
  deriving DecidableEq, Repr

/-- Why a handle cannot be sliced. -/
inductive SliceError where
  | hdlRangeWidthMismatch (range : BitRange) (width : Nat)
  | hdlOutOfBounds (range : BitRange) (msb lsb : Int64)
  | hdlDirectionMismatch (range : BitRange) (msb lsb : Int64)
  | notBits
  | invalidRange (msb lsb : Nat)
  | outOfBounds (width msb lsb : Nat)
  deriving DecidableEq, Repr

/-- `Signal::slice`. -/
def Signal.slice (s : Signal) (msb lsb : Nat) : Except SliceError Signal :=
  match s.width with
  | none => .error .notBits
  | some width =>
    if msb < lsb then .error (.invalidRange msb lsb)
    else if width ≤ msb then .error (.outOfBounds width msb lsb)
    else .ok { s with encoding := .bits ((msb - lsb + 1) % 2 ^ 32), lsb := (s.lsb + lsb) % 2 ^ 32 }

namespace BitRange

/-- The number of bits between an HDL index and the right endpoint. -/
def offset (range : BitRange) (index : Int64) : Nat := (index.toInt - range.lsb.toInt).natAbs

/-- The number of bits of the range. -/
def width (range : BitRange) : Nat := range.offset range.msb + 1

/-- The index lies inside the range. -/
def Contains (range : BitRange) (index : Int64) : Prop :=
  min range.msb.toInt range.lsb.toInt ≤ index.toInt ∧
    index.toInt ≤ max range.msb.toInt range.lsb.toInt

instance (range : BitRange) (index : Int64) : Decidable (range.Contains index) := instDecidableAnd

/-- `BitRange::slice`. -/
def slice (range : BitRange) (signal : Signal) (msb lsb : Int64) : Except SliceError Signal :=
  match signal.width with
  | none => .error .notBits
  | some width =>
    if range.width ≠ width then .error (.hdlRangeWidthMismatch range width)
    else if ¬range.Contains msb ∨ ¬range.Contains lsb then .error (.hdlOutOfBounds range msb lsb)
    else
      -- The differences are cast to `u32`.
      let left := range.offset msb % 2 ^ 32
      let right := range.offset lsb % 2 ^ 32
      if left < right then .error (.hdlDirectionMismatch range msb lsb)
      else signal.slice left right

/-- Two indices follow the direction of the range. -/
def Follows (range : BitRange) (msb lsb : Int64) : Prop :=
  (range.lsb.toInt ≤ range.msb.toInt ∧ lsb.toInt ≤ msb.toInt) ∨
    (range.msb.toInt ≤ range.lsb.toInt ∧ msb.toInt ≤ lsb.toInt)

end BitRange

/-- `BitsRef::bit`: a digit, counted from the right. -/
def bitAt (data : List UInt8) (index : Nat) : Option UInt8 :=
  if index < data.length then data[data.length - index - 1]? else none

/-! ## Digits -/

section
variable {data : List UInt8} {msb lsb : Nat}

/-- A slice has as many digits as it names. -/
theorem length_sliceDigits (h : lsb ≤ msb) (hlt : msb < data.length) :
    (sliceDigits data msb lsb).length = msb - lsb + 1 := by
  simp only [sliceDigits, List.length_drop, List.length_take]
  omega

/-- A slice of a slice. -/
theorem sliceDigits_sliceDigits {b a : Nat} (hab : a ≤ b) (hb : lsb + b ≤ msb)
    (hlt : msb < data.length) :
    sliceDigits (sliceDigits data msb lsb) b a = sliceDigits data (lsb + b) (lsb + a) := by
  have hlength := length_sliceDigits (Nat.le_of_add_right_le hb) hlt
  have hstart : data.length - msb - 1 + (msb - lsb + 1 - b - 1) = data.length - (lsb + b) - 1 := by
    omega
  have hstop : data.length - msb - 1 + (msb - lsb + 1 - a) = data.length - (lsb + a) := by omega
  rw [sliceDigits, hlength, sliceDigits, List.take_drop, List.drop_drop, List.take_take, hstart,
    hstop, Nat.min_eq_left (by omega), sliceDigits]

/-- The whole is a slice of itself. -/
theorem sliceDigits_whole (h : msb + 1 = data.length) : sliceDigits data msb 0 = data := by
  rw [sliceDigits, Nat.sub_zero, List.take_length, show data.length - msb - 1 = 0 by omega,
    List.drop_zero]

/-- A digit of a slice. -/
theorem bitAt_sliceDigits {index : Nat} (h : lsb + index ≤ msb) (hlt : msb < data.length) :
    bitAt (sliceDigits data msb lsb) index = bitAt data (lsb + index) := by
  have hlength := length_sliceDigits (Nat.le_of_add_right_le h) hlt
  rw [bitAt, bitAt, hlength, if_pos (by omega), if_pos (by omega), sliceDigits, List.getElem?_drop,
    List.getElem?_take_of_lt (by omega)]
  congr 1
  omega

end

/-! ## Valid handles -/

section
variable {w : Waveform} {s : Signal} {base width a b : Nat}

/-- A valid bit handle lies in its base, and is whole when it is empty. -/
theorem Query.Waveform.Valid.inside (h : w.Valid s) (hbase : s.baseEncoding = .bits base)
    (hwidth : s.encoding = .bits width) : s.lsb + width ≤ base ∧ (0 < width ∨ s = s.base) := by
  have hin := (validateEncoding_ok h).2.2.2
  simp only [inBase, hbase, hwidth, Bool.and_eq_true, Bool.or_eq_true, decide_eq_true_eq,
    beq_iff_eq] at hin
  exact ⟨hin.2, hin.1⟩

/-- The result of a slice, without the bounds of machine words. -/
theorem Query.Waveform.Valid.slice_eq (h : w.Valid s) (hbase : s.baseEncoding = .bits base)
    (hu32 : base < 2 ^ 32) (hwidth : s.encoding = .bits width) (hab : a ≤ b) (hb : b < width) :
    s.slice b a = .ok { s with encoding := .bits (b - a + 1), lsb := s.lsb + a } := by
  obtain ⟨hinside, -⟩ := h.inside hbase hwidth
  rw [Signal.slice, show s.width = some width by rw [Signal.width, hwidth]]
  dsimp only
  rw [if_neg (by omega), if_neg (by omega), Nat.mod_eq_of_lt (by omega),
    Nat.mod_eq_of_lt (by omega)]

/-- A slice has its bounds in order and inside the width. -/
theorem Signal.slice_ok {t : Signal} (hwidth : s.encoding = .bits width)
    (h : s.slice b a = .ok t) : a ≤ b ∧ b < width := by
  rw [Signal.slice, show s.width = some width by rw [Signal.width, hwidth]] at h
  dsimp only at h
  split at h
  · cases h
  split at h
  · cases h
  · omega

/-- A slice of a valid handle is valid. -/
theorem Query.Waveform.Valid.sliced (h : w.Valid s) (hbase : s.baseEncoding = .bits base)
    (hwidth : s.encoding = .bits width) (hab : a ≤ b) (hb : b < width) :
    w.Valid { s with encoding := .bits (b - a + 1), lsb := s.lsb + a } := by
  obtain ⟨hinside, -⟩ := h.inside hbase hwidth
  obtain ⟨-, hsource, hencoding, -⟩ := validateEncoding_ok h
  unfold Waveform.Valid Query.validate validateEncoding
  rw [show encodingOf w.encodings w.definitions
    { s with encoding := .bits (b - a + 1), lsb := s.lsb + a } = some s.baseEncoding from hencoding]
  rw [if_pos]
  simp only [hsource, inBase, hbase, BEq.rfl, Bool.and_true, Bool.true_and, Bool.and_eq_true,
    Bool.or_eq_true, decide_eq_true_eq]
  omega

/-- A bit handle reads its digits of a base value. -/
theorem Signal.project_eq (hbase : s.baseEncoding = .bits base)
    (hwidth : s.encoding = .bits width) (hpos : 0 < width) {data : List UInt8}
    (hdata : data.length = base) :
    project (.bits data) s = .bits (sliceDigits data (s.lsb + width - 1) s.lsb) := by
  cases hslice : s.isSlice with
  | true => simp [project, hslice, Signal.width, hwidth]
  | false =>
    have hwhole : s = s.base := by simpa [Signal.isSlice] using hslice
    have hlsb : s.lsb = 0 := by rw [hwhole]; rfl
    have hsame : s.encoding = s.baseEncoding := congrArg Signal.encoding hwhole
    rw [hwidth, hbase, Encoding.bits.injEq] at hsame
    rw [Waveform.project_whole hslice, hlsb, Nat.zero_add, sliceDigits_whole (by omega)]

/-- A slice reads digits of what its handle reads. -/
theorem Query.Waveform.Valid.project_slice (h : w.Valid s) (hbase : s.baseEncoding = .bits base)
    (hwidth : s.encoding = .bits width) (hab : a ≤ b) (hb : b < width) {data whole : List UInt8}
    (hdata : data.length = base) (hwhole : project (.bits data) s = .bits whole) :
    whole.length = width ∧
      project (.bits data) { s with encoding := .bits (b - a + 1), lsb := s.lsb + a } =
        .bits (sliceDigits whole b a) := by
  obtain ⟨hinside, -⟩ := h.inside hbase hwidth
  rw [Signal.project_eq hbase hwidth (by omega) hdata, Value.bits.injEq] at hwhole
  subst hwhole
  refine ⟨(length_sliceDigits (by omega) (by omega)).trans (by omega), ?_⟩
  have hproject := Signal.project_eq
    (s := { s with encoding := .bits (b - a + 1), lsb := s.lsb + a }) hbase rfl
    (Nat.succ_pos _) hdata
  rw [hproject, sliceDigits_sliceDigits hab (by omega) (by omega)]
  congr 2
  show s.lsb + a + (b - a + 1) - 1 = s.lsb + b
  omega

end

/-! ## HDL ranges -/

namespace BitRange

variable {range : BitRange} {index msb lsb : Int64}

/-- An index of a range has an offset below the width. -/
theorem offset_lt_width (h : range.Contains index) : range.offset index < range.width := by
  unfold Contains at h
  unfold width offset
  omega

/-- Offsets follow the direction of the range. -/
theorem follows_iff (hmsb : range.Contains msb) (hlsb : range.Contains lsb) :
    range.Follows msb lsb ↔ range.offset lsb ≤ range.offset msb := by
  unfold Contains at hmsb hlsb
  unfold Follows offset
  omega

/-- An HDL slice succeeds on indices of the range that follow its direction, and is the slice of
their offsets. -/
theorem slice_eq_ok {w : Waveform} {s t : Signal} {base width : Nat} (h : w.Valid s)
    (hbase : s.baseEncoding = .bits base) (hu32 : base < 2 ^ 32)
    (hwidth : s.encoding = .bits width) :
    range.slice s msb lsb = .ok t ↔ range.width = width ∧ range.Contains msb ∧ range.Contains lsb ∧
      range.Follows msb lsb ∧ t =
        { s with
          encoding := .bits (range.offset msb - range.offset lsb + 1)
          lsb := s.lsb + range.offset lsb } := by
  obtain ⟨hinside, -⟩ := h.inside hbase hwidth
  rw [slice, show s.width = some width by rw [Signal.width, hwidth]]
  dsimp only
  by_cases hmatch : range.width = width
  swap
  · rw [if_pos hmatch]
    exact ⟨(fun h => by cases h), fun hok => absurd hok.1 hmatch⟩
  rw [if_neg (not_not.2 hmatch)]
  by_cases hcontains : range.Contains msb ∧ range.Contains lsb
  swap
  · rw [if_pos (by tauto)]
    exact ⟨(fun h => by cases h), fun hok => absurd ⟨hok.2.1, hok.2.2.1⟩ hcontains⟩
  obtain ⟨hmsb, hlsb⟩ := hcontains
  have hleft := offset_lt_width hmsb
  have hright := offset_lt_width hlsb
  rw [if_neg (by tauto), Nat.mod_eq_of_lt (by omega), Nat.mod_eq_of_lt (by omega),
    follows_iff hmsb hlsb]
  by_cases hfollows : range.offset lsb ≤ range.offset msb
  swap
  · rw [if_pos (by omega)]
    exact ⟨(fun h => by cases h), fun hok => absurd hok.2.2.2.1 hfollows⟩
  rw [if_neg (by omega), h.slice_eq hbase hu32 hwidth hfollows (by omega), Except.ok.injEq]
  exact ⟨fun heq => ⟨hmatch, hmsb, hlsb, hfollows, heq.symm⟩, fun hok => hok.2.2.2.2.symm⟩

/-- The bits that a slice selects are those whose HDL indices lie between its bounds. -/
theorem between_iff (hmsb : range.Contains msb) (hlsb : range.Contains lsb)
    (hfollows : range.Follows msb lsb) (hindex : range.Contains index) :
    (min msb.toInt lsb.toInt ≤ index.toInt ∧ index.toInt ≤ max msb.toInt lsb.toInt) ↔
      range.offset lsb ≤ range.offset index ∧ range.offset index ≤ range.offset msb := by
  unfold Contains at hmsb hlsb hindex
  unfold Follows at hfollows
  unfold offset
  omega

end BitRange

/-- **Slices compose.** For a valid bit handle of some width: a slice of a slice is one slice, the
full width is the handle itself, the base stays, and a slice reads digits of what the handle reads.
An HDL range slices on indices of its own that follow its direction, and selects the bits whose
indices lie between them, its right endpoint at bit 0. No sum or cast of machine words wraps. -/
theorem slices_compose {w : Waveform} {s : Signal} {base width : Nat} (h : w.Valid s)
    (hbase : s.baseEncoding = .bits base) (hu32 : base < 2 ^ 32)
    (hwidth : s.encoding = .bits width) :
    (∀ b a, a ≤ b → b < width → ∃ t, s.slice b a = .ok t ∧ w.Valid t ∧ t.base = s.base ∧
      t.encoding = .bits (b - a + 1) ∧ t.lsb = s.lsb + a ∧ s.lsb + a < 2 ^ 32 ∧
      (∀ d c, c ≤ d → d ≤ b - a → ∃ u, t.slice d c = .ok u ∧ s.slice (a + d) (a + c) = .ok u) ∧
      ∀ data whole : List UInt8, data.length = base → project (.bits data) s = .bits whole →
        whole.length = width ∧ project (.bits data) t = .bits (sliceDigits whole b a) ∧
          (sliceDigits whole b a).length = b - a + 1 ∧
          ∀ index, index ≤ b - a → bitAt (sliceDigits whole b a) index = bitAt whole (a + index)) ∧
    (0 < width → s.slice (width - 1) 0 = .ok s) ∧
    ∀ (range : BitRange) (msb lsb : Int64),
      ((∃ t, range.slice s msb lsb = .ok t) ↔ range.width = width ∧ range.Contains msb ∧
        range.Contains lsb ∧ range.Follows msb lsb) ∧
      ∀ t, range.slice s msb lsb = .ok t → range.offset msb < 2 ^ 32 ∧ range.offset lsb < 2 ^ 32 ∧
        w.Valid t ∧ t.base = s.base ∧ t.width = some (range.offset msb - range.offset lsb + 1) ∧
        ∀ index, range.Contains index →
          ((min msb.toInt lsb.toInt ≤ index.toInt ∧ index.toInt ≤ max msb.toInt lsb.toInt) ↔
            range.offset lsb ≤ range.offset index ∧ range.offset index ≤ range.offset msb) ∧
          ∀ data whole part : List UInt8, data.length = base →
            project (.bits data) s = .bits whole → project (.bits data) t = .bits part →
              range.offset lsb ≤ range.offset index → range.offset index ≤ range.offset msb →
                bitAt part (range.offset index - range.offset lsb) =
                  bitAt whole (range.offset index) := by
  obtain ⟨hinside, -⟩ := h.inside hbase hwidth
  refine ⟨fun b a hab hb => ?_, fun hpos => ?_, fun range msb lsb => ⟨?_, fun t ht => ?_⟩⟩
  · have hvalid := h.sliced hbase hwidth hab hb
    refine ⟨_, h.slice_eq hbase hu32 hwidth hab hb, hvalid, rfl, rfl, rfl, by omega,
      fun d c hcd hd => ?_, fun data whole hdata hwhole => ?_⟩
    · refine ⟨_, hvalid.slice_eq hbase hu32 rfl hcd (by omega), ?_⟩
      rw [h.slice_eq hbase hu32 hwidth (by omega) (by omega), Nat.add_assoc,
        Nat.add_sub_add_left]
    · obtain ⟨hlength, hpart⟩ := h.project_slice hbase hwidth hab hb hdata hwhole
      exact ⟨hlength, hpart, length_sliceDigits hab (by omega),
        fun index hindex => bitAt_sliceDigits (by omega) (by omega)⟩
  · rw [h.slice_eq hbase hu32 hwidth (Nat.zero_le _) (by omega), Except.ok.injEq]
    have hfull : width - 1 - 0 + 1 = width := by omega
    rw [hfull, Nat.add_zero, ← hwidth]
  · constructor
    · rintro ⟨t, ht⟩
      obtain ⟨hmatch, hmsb, hlsb, hfollows, -⟩ := (BitRange.slice_eq_ok h hbase hu32 hwidth).1 ht
      exact ⟨hmatch, hmsb, hlsb, hfollows⟩
    · rintro ⟨hmatch, hmsb, hlsb, hfollows⟩
      exact ⟨_, (BitRange.slice_eq_ok h hbase hu32 hwidth).2 ⟨hmatch, hmsb, hlsb, hfollows, rfl⟩⟩
  · obtain ⟨hmatch, hmsb, hlsb, hfollows, rfl⟩ := (BitRange.slice_eq_ok h hbase hu32 hwidth).1 ht
    have hleft := BitRange.offset_lt_width hmsb
    have hright := BitRange.offset_lt_width hlsb
    have horder := (BitRange.follows_iff hmsb hlsb).1 hfollows
    refine ⟨by omega, by omega, h.sliced hbase hwidth horder (by omega), rfl, rfl,
      fun index hindex => ⟨BitRange.between_iff hmsb hlsb hfollows hindex,
        fun data whole part hdata hwhole hpart hlow hhigh => ?_⟩⟩
    obtain ⟨hlength, hslice⟩ := h.project_slice hbase hwidth horder (by omega) hdata hwhole
    rw [hslice, Value.bits.injEq] at hpart
    rw [← hpart, bitAt_sliceDigits (by omega) (by omega), Nat.add_sub_cancel' hlow]

/-- Four bits of a byte: a slice of them, a slice of that slice, what they hold, and the same slice
in the indices of a descending range, which takes no bounds the other way round. -/
theorem slices_compose_byte :
    let w : Waveform := ⟨1, [.bits 8], [], none, fun i d h => by cases h⟩
    let s : Signal := ⟨1, 0, false, .bits 8, .bits 4, 2⟩
    let t : Signal := ⟨1, 0, false, .bits 8, .bits 3, 3⟩
    let range : BitRange := ⟨7, 4⟩
    let byte := ascii "10110100"
    w.Valid s ∧ s.slice (4 - 1) 0 = .ok s ∧ s.slice 3 1 = .ok t ∧ w.Valid t ∧
      (∃ u, t.slice 1 1 = .ok u ∧ s.slice (1 + 1) (1 + 1) = .ok u) ∧
      project (.bits byte) s = .bits (ascii "1101") ∧
      project (.bits byte) t = .bits (sliceDigits (ascii "1101") 3 1) ∧
      sliceDigits (ascii "1101") 3 1 = ascii "110" ∧
      range.slice s 7 5 = .ok t ∧ ¬∃ u, range.slice s 5 7 = .ok u := by
  intro w s t range byte
  have h : w.Valid s := by unfold Waveform.Valid; decide
  obtain ⟨hslices, hwhole, hrange⟩ := slices_compose h rfl (by decide) rfl
  obtain ⟨t', hslice, hvalid, -, -, -, -, hagain, hdigits⟩ := hslices 3 1 (by decide) (by decide)
  have ht : s.slice 3 1 = .ok t := by decide
  cases ht.symm.trans hslice
  have hbyte : project (.bits byte) s = .bits (ascii "1101") := by decide
  refine ⟨h, hwhole (by decide), ht, hvalid, hagain 1 1 (by decide) (by decide), hbyte,
    (hdigits byte _ (by decide) hbyte).2.1, by decide, by decide, fun hex => ?_⟩
  have hfollows := ((hrange range 5 7).1.1 hex).2.2.2
  rcases hfollows with ⟨-, hle⟩ | ⟨hle, -⟩ <;> exact absurd hle (by decide)

end Ondas
