import Mathlib.Algebra.Field.Rat
import Mathlib.Data.List.DropRight
import Mathlib.Tactic.FieldSimp
import Mathlib.Tactic.NormNum
import Mathlib.Tactic.Positivity
import Mathlib.Tactic.Ring
import Ondas.Vcd.Tokens

/-!
# VCD time scales

A time scale is written as a decimal number and a unit. `timescale` moves to finer units until the
number is an integer, by multiplications in 128 bits. `Written` says which texts are time scales and
`quantity` what they mean, in seconds. The factor and the unit that are answered are the written
quantity at the coarsest unit in which it is an integer (`Coarsest`), and the bounds of the machine
integers reject no quantity whose factor fits (`timescale_exact`): a trimmed fraction with `f`
digits becomes an integer only after `f` factors of ten (`fraction_le`), which three for each unit
bound.
-/

namespace Ondas.Vcd

/-! ## The parser -/

/-- `char::is_ascii_whitespace`. -/
def isSpaceChar (c : Char) : Bool :=
  c == ' ' || c == '\t' || c == '\n' || c == '\x0c' || c == '\r'

/-- The units, from the coarsest one. -/
def timescaleUnits : List TimeUnit :=
  [.second, .millisecond, .microsecond, .nanosecond, .picosecond, .femtosecond, .attosecond,
    .zeptosecond]

/-- The index of a written unit. -/
def unitIndex : List Char → Option Nat
  | ['s'] | ['s', 'e', 'c'] => some 0
  | ['m', 's'] => some 1
  | ['u', 's'] => some 2
  | ['n', 's'] => some 3
  | ['p', 's'] => some 4
  | ['f', 's'] => some 5
  | ['a', 's'] => some 6
  | ['z', 's'] => some 7
  | _ => none

/-- The number that digits write. -/
def decimalText (digits : List Char) : Nat := digits.foldl (fun n c => n * 10 + (c.toNat - 48)) 0

/-- `u128::MAX`. -/
def u128Max : Nat := 2 ^ 128 - 1

/-- The loop of `timescale`, with the finer units that are left: the numerator and the unit. -/
def scaleLoop (denominator : Nat) : Nat → Nat → Nat → Except Error (Nat × Nat)
  | 0, numerator, unit => .ok (numerator, unit)
  | left + 1, numerator, unit =>
    if numerator % denominator ≠ 0 then
      if u128Max < numerator * 1000 then .error (malformed "timescale overflow")
      else scaleLoop denominator left (numerator * 1000) (unit + 1)
    else .ok (numerator, unit)

/-- The time scale of digits before and after the point. -/
def scaleDigits (whole fraction : List Char) (unit : Nat) : Except Error Timescale :=
  let fraction := fraction.rdropWhile (· == '0')
  let numerator := decimalText (whole ++ fraction)
  let denominator := 10 ^ fraction.length
  if u128Max < numerator then .error (malformed "timescale overflow")
  else if 2 ^ 32 ≤ fraction.length ∨ u128Max < denominator then
    .error (malformed "timescale precision overflow")
  else
    match scaleLoop denominator (timescaleUnits.length - 1 - unit) numerator unit with
    | .error e => .error e
    | .ok (numerator, unit) =>
      if numerator = 0 ∨ numerator % denominator ≠ 0 then
        .error (malformed "timescale is zero or not exactly representable")
      else if 2 ^ 32 ≤ numerator / denominator then
        .error (malformed "timescale factor overflow")
      else .ok ⟨numerator / denominator, timescaleUnits.getD unit .second⟩

/-- `timescale`. -/
def timescale (text : List Char) : Except Error Timescale :=
  let text := text.filter fun c => !isSpaceChar c
  let number := text.takeWhile fun c => !c.isAlpha
  let name := text.dropWhile fun c => !c.isAlpha
  if name.isEmpty then .error (malformed "missing timescale unit")
  else
    match unitIndex name with
    | none => .error (malformed "unknown timescale unit")
    | some unit =>
      let whole := number.takeWhile (· != '.')
      let fraction := (number.dropWhile (· != '.')).tail
      if whole.isEmpty || !(whole ++ fraction).all Char.isDigit then
        .error (malformed "invalid timescale number")
      else scaleDigits whole fraction unit

/-! ## What is written -/

/-- A text of a number and a unit: digits, perhaps a point and more digits, and the name of the
unit, with whitespace anywhere. -/
structure Written (text whole fraction : List Char) (unit : Nat) : Prop where
  nonempty : whole ≠ []
  digits : ∀ c ∈ whole ++ fraction, c.isDigit = true
  form : ∃ name, unitIndex name = some unit ∧
    (text.filter (fun c => !isSpaceChar c) = whole ++ name ∧ fraction = [] ∨
      text.filter (fun c => !isSpaceChar c) = whole ++ '.' :: (fraction ++ name))

/-- The written quantity, in seconds. -/
def quantity (whole fraction : List Char) (unit : Nat) : ℚ :=
  decimalText (whole ++ fraction) / 10 ^ fraction.length / 1000 ^ unit

/-- A quantity of seconds is so many of a unit: the coarsest one, from the written one on, in which
it is an integer. It is not zero, and the factor fits 32 bits. -/
structure Coarsest (seconds : ℚ) (written unit factor : Nat) : Prop where
  nonzero : seconds ≠ 0
  finer : written ≤ unit
  exact : seconds * 1000 ^ unit = factor
  coarsest : ∀ coarser, written ≤ coarser → coarser < unit →
    ¬ ∃ n : Nat, seconds * 1000 ^ coarser = n
  fits : factor < 2 ^ 32

/-! ## Digits -/

/-- Reading digits goes on from a number. -/
theorem foldl_decimal (digits : List Char) (n : Nat) :
    digits.foldl (fun n c => n * 10 + (c.toNat - 48)) n =
      n * 10 ^ digits.length + decimalText digits := by
  induction digits generalizing n with
  | nil => simp [decimalText]
  | cons c digits ih =>
    rw [decimalText, List.foldl_cons, List.foldl_cons, ih, ih (0 * 10 + _), List.length_cons]
    ring

/-- Decimal digits before others count by their place. -/
theorem decimalText_append (digits more : List Char) :
    decimalText (digits ++ more) = decimalText digits * 10 ^ more.length + decimalText more := by
  rw [decimalText, List.foldl_append, foldl_decimal]
  rfl

/-- Zeros at the end of a fraction do not count. -/
theorem quantity_trim (whole fraction : List Char) (unit : Nat) :
    quantity whole (fraction.rdropWhile (· == '0')) unit = quantity whole fraction unit := by
  induction fraction using List.reverseRecOn with
  | nil => rfl
  | append_singleton fraction c ih =>
    by_cases hc : c = '0'
    · have hzero : decimalText (whole ++ (fraction ++ [c])) =
          decimalText (whole ++ fraction) * 10 := by
        rw [← List.append_assoc, decimalText_append, hc]
        rfl
      rw [List.rdropWhile_concat_pos (· == '0') fraction c (by simpa using hc), ih,
        quantity, quantity,
        hzero, List.length_append, List.length_singleton, pow_succ]
      push_cast
      field_simp
    · rw [List.rdropWhile_concat_neg (· == '0') fraction c (by simpa using hc)]

/-- A number whose last digit is not zero. -/
theorem not_dvd_concat {digits : List Char} {last : Char} (hdigit : last.isDigit = true)
    (hnonzero : last ≠ '0') : ¬ 10 ∣ decimalText (digits ++ [last]) := by
  have hvalue : decimalText [last] = last.toNat - 48 := by simp [decimalText]
  have hbound : 48 ≤ last.toNat ∧ last.toNat ≤ 57 := by
    simpa [Char.isDigit, UInt32.le_iff_toNat_le] using hdigit
  have hcode : last.toNat ≠ 48 := fun h => hnonzero (Char.toNat_inj.1 h)
  rw [decimalText_append, hvalue, List.length_singleton, pow_one]
  omega

/-- A trimmed fraction does not end in a zero. -/
theorem not_dvd_trimmed {whole fraction : List Char}
    (hdigits : ∀ c ∈ whole ++ fraction, c.isDigit = true)
    (hne : fraction.rdropWhile (· == '0') ≠ []) :
    ¬ 10 ∣ decimalText (whole ++ fraction.rdropWhile (· == '0')) := by
  have hlast := List.rdropWhile_last_not (· == '0') fraction hne
  have hmem : (fraction.rdropWhile (· == '0')).getLast hne ∈ fraction :=
    (List.rdropWhile_prefix (· == '0') (l := fraction)).subset (List.getLast_mem hne)
  rw [← List.dropLast_append_getLast hne, ← List.append_assoc]
  exact not_dvd_concat (hdigits _ (List.mem_append_right _ hmem)) (by simpa using hlast)

/-- A quantity in a finer unit, without fractions. -/
theorem quantity_scaled (whole fraction : List Char) (unit k n : Nat) :
    quantity whole fraction unit * 1000 ^ (unit + k) = n ↔
      decimalText (whole ++ fraction) * 1000 ^ k = n * 10 ^ fraction.length := by
  rw [quantity, pow_add, mul_comm n]
  field_simp
  norm_cast

/-- So many digits of a fraction need as many factors of ten. -/
theorem fraction_le {numerator f k factor : Nat} (h : numerator * 1000 ^ k = factor * 10 ^ f)
    (hlast : f = 0 ∨ ¬ 10 ∣ numerator) : f ≤ 3 * k := by
  by_contra hlt
  obtain ⟨d, rfl⟩ := Nat.exists_eq_add_of_lt (Nat.lt_of_not_le hlt)
  have hthousand : 1000 ^ k = 10 ^ (3 * k) := by rw [pow_mul]; norm_num
  have hcancel : numerator = factor * 10 ^ (d + 1) := by
    refine Nat.eq_of_mul_eq_mul_right (show 0 < 10 ^ (3 * k) by positivity) ?_
    rw [← hthousand, h, hthousand, mul_assoc, ← pow_add]
    congr 2
    omega
  refine (hlast.resolve_left (by omega)) ?_
  rw [hcancel, pow_succ, ← mul_assoc]
  exact Dvd.intro_left _ rfl

/-- A quantity whose factor fits is never too large on the way. -/
theorem scaled_le {numerator f k factor : Nat} (h : numerator * 1000 ^ k = factor * 10 ^ f)
    (hlast : f = 0 ∨ ¬ 10 ∣ numerator) (hk : k ≤ 7) (hfactor : factor < 2 ^ 32) :
    f ≤ 21 ∧ numerator * 1000 ^ k ≤ u128Max := by
  have hf : f ≤ 21 := (fraction_le h hlast).trans (by omega)
  refine ⟨hf, ?_⟩
  calc numerator * 1000 ^ k = factor * 10 ^ f := h
    _ ≤ 2 ^ 32 * 10 ^ 21 := Nat.mul_le_mul hfactor.le (Nat.pow_le_pow_right (by decide) hf)
    _ ≤ u128Max := by decide

/-! ## The loop -/

/-- The loop stops at the first unit in which the number is an integer, or at the finest one. -/
theorem scaleLoop_eq_ok {denominator left numerator unit numerator' unit' : Nat} :
    scaleLoop denominator left numerator unit = .ok (numerator', unit') ↔
      ∃ k, k ≤ left ∧ unit' = unit + k ∧ numerator' = numerator * 1000 ^ k ∧
        (∀ j, j < k → ¬ denominator ∣ numerator * 1000 ^ j) ∧
        (denominator ∣ numerator' ∨ k = left) ∧ (k ≠ 0 → numerator' ≤ u128Max) := by
  induction left generalizing numerator unit with
  | zero =>
    constructor
    · intro h
      cases h
      exact ⟨0, le_rfl, rfl, by simp, nofun, .inr rfl, nofun⟩
    · rintro ⟨k, hk, rfl, rfl, -⟩
      obtain rfl := Nat.le_zero.1 hk
      simp [scaleLoop]
  | succ left ih =>
    rw [scaleLoop]
    split
    next hdvd =>
      have hdvd : ¬ denominator ∣ numerator := fun h => hdvd (Nat.mod_eq_zero_of_dvd h)
      have hturn : ∀ k, numerator * 1000 * 1000 ^ k = numerator * 1000 ^ (k + 1) := fun k => by ring
      split
      next hover =>
        refine ⟨nofun, ?_⟩
        rintro ⟨k, hk, rfl, rfl, -, hstop, hfits⟩
        obtain ⟨k, rfl⟩ : ∃ k', k = k' + 1 := by
          cases k with
          | zero => exact absurd (hstop.resolve_right nofun) (by simpa using hdvd)
          | succ k => exact ⟨k, rfl⟩
        rw [← hturn] at hfits
        have hle := Nat.le_mul_of_pos_right (numerator * 1000) (show 0 < 1000 ^ k by positivity)
        have := hfits (Nat.succ_ne_zero k)
        omega
      next hover =>
        rw [ih]
        constructor
        · rintro ⟨k, hk, rfl, rfl, hfirst, hstop, hfits⟩
          refine ⟨k + 1, Nat.succ_le_succ hk, by omega, hturn k, fun j hj => ?_, ?_, fun _ => ?_⟩
          · cases j with
            | zero => simpa using hdvd
            | succ j => exact hturn j ▸ hfirst j (Nat.lt_of_succ_lt_succ hj)
          · exact hstop.imp id fun hk => by rw [hk]
          · cases k with
            | zero => simpa using Nat.le_of_not_lt hover
            | succ k => exact hfits nofun
        · rintro ⟨k, hk, rfl, rfl, hfirst, hstop, hfits⟩
          cases k with
          | zero => exact absurd (hstop.resolve_right nofun) (by simpa using hdvd)
          | succ k =>
            refine ⟨k, Nat.le_of_succ_le_succ hk, by omega, (hturn k).symm, fun j hj => ?_,
              hstop.imp id Nat.succ.inj, fun _ => hfits nofun⟩
            exact hturn j ▸ hfirst (j + 1) (Nat.succ_lt_succ hj)
    next hdvd =>
      have hdvd : denominator ∣ numerator := Nat.dvd_of_mod_eq_zero (not_not.1 hdvd)
      constructor
      · intro h
        cases h
        exact ⟨0, Nat.zero_le _, rfl, by simp, nofun, .inl hdvd, nofun⟩
      · rintro ⟨k, hk, rfl, rfl, hfirst, -⟩
        cases k with
        | zero => simp
        | succ k => exact absurd (by simpa using hdvd) (hfirst 0 (Nat.succ_pos k))

/-! ## Parsing -/

/-- The units of a written unit and finer ones. -/
theorem unitIndex_lt {name : List Char} {unit : Nat} (h : unitIndex name = some unit) :
    unit < 8 := by
  unfold unitIndex at h
  split at h <;> cases h <;> decide

/-- The name of a unit starts with a letter. -/
theorem unitIndex_alpha {name : List Char} {unit : Nat} (h : unitIndex name = some unit) :
    ∃ c rest, name = c :: rest ∧ c.isAlpha = true := by
  unfold unitIndex at h
  split at h <;> cases h <;> exact ⟨_, _, rfl, by decide⟩

section
variable {text whole fraction : List Char} {unit : Nat}

/-- The time scale of digits is the quantity that they write, at its coarsest exact unit. -/
theorem scaleDigits_eq_ok (hdigits : ∀ c ∈ whole ++ fraction, c.isDigit = true) (hunit : unit < 8)
    (scale : Timescale) :
    scaleDigits whole fraction unit = .ok scale ↔
      ∃ finer factor, finer < 8 ∧ scale = ⟨factor, timescaleUnits.getD finer .second⟩ ∧
        Coarsest (quantity whole fraction unit) unit finer factor := by
  have hlast : (fraction.rdropWhile (· == '0')).length = 0 ∨
      ¬ 10 ∣ decimalText (whole ++ fraction.rdropWhile (· == '0')) := by
    refine or_iff_not_imp_left.2 fun hne => not_dvd_trimmed hdigits fun hnil => hne ?_
    rw [hnil, List.length_nil]
  rw [← quantity_trim]
  unfold scaleDigits
  dsimp only
  generalize fraction.rdropWhile (· == '0') = fraction at hlast ⊢
  set numerator := decimalText (whole ++ fraction) with hnumerator
  set f := fraction.length with hf
  -- An integral multiple of the quantity divides without rest.
  have hdvd : ∀ k, 10 ^ f ∣ numerator * 1000 ^ k ↔
      ∃ n : Nat, quantity whole fraction unit * 1000 ^ (unit + k) = n := by
    intro k
    simp only [quantity_scaled]
    exact ⟨fun ⟨n, hn⟩ => ⟨n, hn.trans (mul_comm _ _)⟩, fun ⟨n, hn⟩ => ⟨n, hn.trans (mul_comm _ _)⟩⟩
  have hzero : quantity whole fraction unit = 0 ↔ numerator = 0 := by
    rw [quantity, hnumerator]
    simp
  constructor
  · intro h
    split at h
    · cases h
    split at h
    · cases h
    split at h
    · cases h
    next numerator' finer hloop =>
    obtain ⟨k, hk, rfl, rfl, hfirst, -, -⟩ := scaleLoop_eq_ok.1 hloop
    split at h
    · cases h
    next hstop =>
    obtain ⟨hne, hmod⟩ := not_or.1 hstop
    have hexact := Nat.dvd_of_mod_eq_zero (not_not.1 hmod)
    split at h
    · cases h
    next hfits =>
    cases h
    have hk : k ≤ 7 - unit := hk
    refine ⟨unit + k, _, by omega, rfl, ?_, Nat.le_add_right _ _, ?_, fun coarser hle hlt => ?_,
      Nat.lt_of_not_le hfits⟩
    · rw [ne_eq, hzero]
      exact left_ne_zero_of_mul hne
    · rw [quantity_scaled]
      exact (Nat.div_mul_cancel hexact).symm
    · obtain ⟨j, rfl⟩ := Nat.exists_eq_add_of_le hle
      rw [← hdvd]
      exact hfirst j (by omega)
  · rintro ⟨finer, factor, hfiner, rfl, hcoarsest⟩
    obtain ⟨k, rfl⟩ := Nat.exists_eq_add_of_le hcoarsest.finer
    have hscaled := (quantity_scaled whole fraction unit k factor).1 hcoarsest.exact
    rw [← hnumerator, ← hf] at hscaled
    obtain ⟨hshort, hsmall⟩ := scaled_le hscaled hlast (by omega) hcoarsest.fits
    have hpow : 10 ^ f ≤ u128Max := (Nat.pow_le_pow_right (by decide) hshort).trans (by decide)
    have hle : numerator ≤ u128Max :=
      (Nat.le_mul_of_pos_right _ (by positivity)).trans hsmall
    have hpos : 0 < 10 ^ f := by positivity
    have hloop : scaleLoop (10 ^ f) (timescaleUnits.length - 1 - unit) numerator unit =
        .ok (numerator * 1000 ^ k, unit + k) := by
      refine scaleLoop_eq_ok.2 ⟨k, ?_, rfl, rfl, fun j hj => ?_, .inl ?_, fun _ => hsmall⟩
      · show k ≤ 7 - unit
        omega
      · rw [hdvd]
        exact hcoarsest.coarsest _ (Nat.le_add_right _ _) (by omega)
      · rw [hscaled]
        exact Dvd.intro_left _ rfl
    have hnonzero : numerator * 1000 ^ k ≠ 0 :=
      mul_ne_zero (fun h => hcoarsest.nonzero (hzero.2 h)) (by positivity)
    have hdiv : numerator * 1000 ^ k / 10 ^ f = factor := by
      rw [hscaled, Nat.mul_div_cancel _ hpos]
    have hmod : numerator * 1000 ^ k % 10 ^ f = 0 := by rw [hscaled, Nat.mul_mod_left]
    rw [if_neg (Nat.not_lt.2 hle), if_neg (by omega), hloop]
    dsimp only
    rw [if_neg (by simp [hnonzero, hmod]), hdiv, if_neg (Nat.not_le.2 hcoarsest.fits)]

/-- A digit is no letter and no point. -/
theorem digit_plain {c : Char} (h : c.isDigit = true) : c.isAlpha = false ∧ c ≠ '.' := by
  have hbound : 48 ≤ c.val.toNat ∧ c.val.toNat ≤ 57 := by
    simpa [Char.isDigit, UInt32.le_iff_toNat_le] using h
  refine ⟨?_, fun hdot => by rw [hdot] at h; cases h⟩
  have halpha : c.isAlpha = (decide (c.val ≥ 'A'.val ∧ c.val ≤ 'Z'.val) ||
      decide (c.val ≥ 'a'.val) && decide (c.val ≤ 'z'.val)) := rfl
  simp only [halpha, Bool.or_eq_false_iff, Bool.and_eq_false_iff, decide_eq_false_iff_not,
    UInt32.le_iff_toNat_le, ge_iff_le]
  have hupper : 'A'.val.toNat = 65 := rfl
  have hlower : 'a'.val.toNat = 97 := rfl
  omega

/-- Digits without a point, and digits around one, are split there. -/
theorem split_point (hwhole : ∀ c ∈ whole, (c != '.') = true) :
    (whole.takeWhile (· != '.') = whole ∧ (whole.dropWhile (· != '.')).tail = []) ∧
      (whole ++ '.' :: fraction).takeWhile (· != '.') = whole ∧
        ((whole ++ '.' :: fraction).dropWhile (· != '.')).tail = fraction := by
  refine ⟨⟨List.takeWhile_eq_self_iff.2 hwhole, ?_⟩, ?_, ?_⟩
  · rw [List.dropWhile_eq_nil_iff.2 hwhole]
    rfl
  · rw [List.takeWhile_append_of_pos hwhole]
    simp
  · rw [List.dropWhile_append_of_pos hwhole]
    simp

/-- A number is its whole part, or its whole part and its fraction around a point. -/
theorem eq_split (number : List Char) :
    number = number.takeWhile (· != '.') ∧ (number.dropWhile (· != '.')).tail = [] ∨
      number = number.takeWhile (· != '.') ++ '.' :: (number.dropWhile (· != '.')).tail := by
  have hsplit := (List.takeWhile_append_dropWhile (p := (· != '.')) (l := number)).symm
  cases hrest : number.dropWhile (· != '.') with
  | nil => exact .inl ⟨by rw [hrest, List.append_nil] at hsplit; exact hsplit, rfl⟩
  | cons c rest =>
    have hc := List.head_dropWhile_not (p := (· != '.')) (l := number) (by rw [hrest]; simp)
    simp only [hrest, List.head_cons, bne_eq_false_iff_eq] at hc
    refine .inr ?_
    rw [hrest, hc] at hsplit
    exact hsplit

/-- The parts that the parser splits a time scale into. -/
theorem timescale_written (h : Written text whole fraction unit) :
    timescale text = scaleDigits whole fraction unit := by
  obtain ⟨name, hname, hform⟩ := h.form
  obtain ⟨c, rest, rfl, hc⟩ := unitIndex_alpha hname
  have hplain := fun d hd => digit_plain (h.digits d hd)
  have hpoint := @split_point whole fraction fun d hd => by
    simpa using (hplain d (List.mem_append_left _ hd)).2
  -- What comes before the unit, and how the point splits it.
  obtain ⟨number, htext, halpha, hwhole, hfraction⟩ : ∃ number : List Char,
      text.filter (fun c => !isSpaceChar c) = number ++ c :: rest ∧
        (∀ d ∈ number, (!d.isAlpha) = true) ∧ number.takeWhile (· != '.') = whole ∧
          (number.dropWhile (· != '.')).tail = fraction := by
    rcases hform with ⟨htext, rfl⟩ | htext
    · refine ⟨whole, htext, fun d hd => ?_, hpoint.1⟩
      rw [(hplain d (by simpa using hd)).1]
      rfl
    · refine ⟨whole ++ '.' :: fraction, by simpa using htext, fun d hd => ?_, hpoint.2⟩
      rcases List.mem_append.1 hd with hd | hd
      · rw [(hplain d (List.mem_append_left _ hd)).1]
        rfl
      · rcases List.mem_cons.1 hd with rfl | hd
        · rfl
        · rw [(hplain d (List.mem_append_right _ hd)).1]
          rfl
  unfold timescale
  dsimp only
  rw [htext, List.takeWhile_append_of_pos halpha, List.dropWhile_append_of_pos halpha,
    List.takeWhile_cons_of_neg (by simp [hc]), List.dropWhile_cons_of_neg (by simp [hc]),
    List.append_nil, hname, hwhole, hfraction]
  have hempty : whole.isEmpty = false := by simpa using h.nonempty
  have hall : (whole ++ fraction).all Char.isDigit = true := List.all_eq_true.2 h.digits
  simp only [hempty, hall, List.isEmpty_cons, Bool.false_eq_true, if_false, Bool.not_true,
    Bool.or_self]

/-- **VCD time scales are exact.** A text has a time scale exactly when it writes a quantity, not
zero, which is an integer that fits 32 bits in the coarsest unit, from the written one on, in which
it is an integer; and this integer and unit are the time scale. Every other text is an error. -/
theorem timescale_exact (text : List Char) (scale : Timescale) :
    timescale text = .ok scale ↔
      ∃ whole fraction unit finer factor, Written text whole fraction unit ∧ finer < 8 ∧
        scale = ⟨factor, timescaleUnits.getD finer .second⟩ ∧
          Coarsest (quantity whole fraction unit) unit finer factor := by
  constructor
  · intro h
    -- A text that is parsed is written.
    obtain ⟨whole, fraction, unit, hwritten⟩ : ∃ whole fraction unit,
        Written text whole fraction unit := by
      unfold timescale at h
      dsimp only at h
      set number := (text.filter fun c => !isSpaceChar c).takeWhile fun c => !c.isAlpha
      set name := (text.filter fun c => !isSpaceChar c).dropWhile fun c => !c.isAlpha
      have htext : text.filter (fun c => !isSpaceChar c) = number ++ name :=
        List.takeWhile_append_dropWhile.symm
      split at h
      · cases h
      split at h
      · cases h
      next unit hunit =>
      split at h
      · cases h
      next hvalid =>
      rw [Bool.not_eq_true, Bool.or_eq_false_iff, Bool.not_eq_false', List.all_eq_true] at hvalid
      refine ⟨_, _, unit, by simpa using hvalid.1, hvalid.2, name, hunit, ?_⟩
      rw [htext]
      rcases eq_split number with ⟨hnumber, hfraction⟩ | hnumber
      · exact .inl ⟨by rw [← hnumber], hfraction⟩
      · refine .inr ?_
        conv_lhs => rw [hnumber]
        simp
    have hunit : unit < 8 := unitIndex_lt hwritten.form.choose_spec.1
    rw [timescale_written hwritten, scaleDigits_eq_ok hwritten.digits hunit] at h
    obtain ⟨finer, factor, hfiner, hscale, hcoarsest⟩ := h
    exact ⟨whole, fraction, unit, finer, factor, hwritten, hfiner, hscale, hcoarsest⟩
  · rintro ⟨whole, fraction, unit, finer, factor, hwritten, hfiner, hscale, hcoarsest⟩
    have hunit : unit < 8 := unitIndex_lt hwritten.form.choose_spec.1
    rw [timescale_written hwritten, scaleDigits_eq_ok hwritten.digits hunit]
    exact ⟨finer, factor, hfiner, hscale, hcoarsest⟩

example : timescale "0.0100 s".toList = .ok ⟨10, .millisecond⟩ := by decide

end

end Ondas.Vcd
