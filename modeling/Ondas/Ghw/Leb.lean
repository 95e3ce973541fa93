import Mathlib.Tactic.IntervalCases
import Mathlib.Tactic.Ring
import Ondas.Ghw.Window

/-!
# LEB128 fields

A LEB128 field is a run of groups of seven bits, the least significant one first. Every group but
the last one has its highest bit set (`Terminated`). The last group of an unsigned field is a
number, and that of a signed one is in two's complement, so both have one value (`lebValue`). The
readers of the wire and of a window accept a field when it has no more groups than the width needs,
and its value fits the width, with this value and its length (`Encodes`); they refuse everything
else. That a partial last group is checked with masks, before it is shifted, comes to this
(`Turns`).
-/

namespace Ondas.Ghw

open Library Wire

/-! ## Values of fields -/

/-- The groups of a field: each has another one after it, but the last one. -/
def Terminated : List UInt8 → Prop
  | [] => False
  | [b] => b.toNat < 128
  | b :: rest => 128 ≤ b.toNat ∧ Terminated rest

/-- The value of a field, by that of its last group. -/
def lebValue (last : UInt8 → Int) : List UInt8 → Int
  | [] => 0
  | [b] => last b
  | b :: rest => b.toNat % 128 + 128 * lebValue last rest

/-- The value of the last group of an unsigned field. -/
def unsignedLast (b : UInt8) : Int := b.toNat % 128

/-- The value of the last group of a signed field, in two's complement. -/
def signedLast (b : UInt8) : Int :=
    if b.toNat % 128 < 64 then b.toNat % 128 else b.toNat % 128 - 128

/-- Some bytes start with a field of at most so many groups, whose value lies in a range. -/
structure Encodes (last : UInt8 → Int) (limit : Nat) (low high : Int) (bytes : List UInt8)
    (value : Int) (n : Nat) : Prop where
  field : ∃ field rest, bytes = field ++ rest ∧ field.length = n ∧ Terminated field ∧
    lebValue last field = value
  short : n ≤ limit
  range : low ≤ value ∧ value < high

/-! ## The loop over the groups -/

/-- What the body of a loop does, for groups that were read to a number `num`: it ends with the
value of the field when this fits, and goes on with the next group while there may be one. -/
structure Turns {V R : Type} (turn : Nat → V → UInt8 → LebTurn V R) (num : V → Nat) (val : R → Int)
    (last : UInt8 → Int) (limit : Nat) (low high : Int) : Prop where
  done : ∀ group value b result, group < limit → num value < 2 ^ (7 * group) → b.toNat < 128 →
    (turn group value b = .done result ↔
      val result = num value + 2 ^ (7 * group) * last b ∧ low ≤ val result ∧ val result < high)
  ended : ∀ group value b value', group < limit → b.toNat < 128 → turn group value b ≠ .more value'
  more : ∀ group value b, group + 1 < limit → num value < 2 ^ (7 * group) → 128 ≤ b.toNat →
    ∃ value', turn group value b = .more value' ∧
      num value' = num value + 2 ^ (7 * group) * (b.toNat % 128)
  unended : ∀ group value b result, group < limit → 128 ≤ b.toNat →
    turn group value b ≠ .done result

section
variable {V R : Type} {turn : Nat → V → UInt8 → LebTurn V R} {num : V → Nat} {val : R → Int}
  {last : UInt8 → Int} {limit : Nat} {low high : Int}

/-- A group is followed by the rest of its field. -/
theorem lebValue_cons (last : UInt8 → Int) (b : UInt8) {rest : List UInt8} (hrest : rest ≠ []) :
    lebValue last (b :: rest) = b.toNat % 128 + 128 * lebValue last rest := by
  cases rest with
  | nil => exact absurd rfl hrest
  | cons c rest => rfl

theorem Terminated.ne_nil {field : List UInt8} (h : Terminated field) : field ≠ [] := by
  rintro rfl
  exact h

/-- The loop reads fields. The induction is on the groups that there may still be. -/
theorem sliceLeb_eq_some (h : Turns turn num val last limit low high) {fuel group n : Nat}
    {value : V} {result : R} (hfuel : group + fuel = limit) (hvalue : num value < 2 ^ (7 * group))
    (bytes : List UInt8) :
    sliceLeb turn fuel group value bytes = some (result, n) ↔
      ∃ field rest, bytes = field ++ rest ∧ Terminated field ∧ field.length ≤ fuel ∧
        n = group + field.length ∧ val result = num value + 2 ^ (7 * group) * lebValue last field ∧
          low ≤ val result ∧ val result < high := by
  induction fuel generalizing group value bytes with
  | zero =>
    refine ⟨(fun h => by cases h), ?_⟩
    rintro ⟨field, rest, -, hfield, hlength, -⟩
    exact absurd (List.length_eq_zero_iff.1 (Nat.le_zero.1 hlength)) hfield.ne_nil
  | succ fuel ih =>
    cases bytes with
    | nil =>
      refine ⟨(fun h => by cases h), ?_⟩
      rintro ⟨field, rest, hbytes, hfield, -⟩
      exact absurd (List.append_eq_nil_iff.1 hbytes.symm).1 hfield.ne_nil
    | cons b bytes =>
      rw [sliceLeb]
      have hgroup : group < limit := by omega
      by_cases hb : b.toNat < 128
      · -- The last group. A field that starts with it has no other one.
        have hfield : (∃ field rest, b :: bytes = field ++ rest ∧ Terminated field ∧
            field.length ≤ fuel + 1 ∧ n = group + field.length ∧
            val result = num value + 2 ^ (7 * group) * lebValue last field ∧
            low ≤ val result ∧ val result < high) ↔ n = group + 1 ∧
              val result = num value + 2 ^ (7 * group) * last b ∧ low ≤ val result ∧
                val result < high := by
          constructor
          · rintro ⟨field, rest, hbytes, hfield, -, rfl, hresult⟩
            obtain ⟨c, field, rfl⟩ := List.exists_cons_of_ne_nil hfield.ne_nil
            obtain ⟨rfl, -⟩ := List.cons.inj hbytes
            cases field with
            | nil => exact ⟨rfl, hresult⟩
            | cons d field => exact absurd hfield.1 (Nat.not_le.2 hb)
          · rintro ⟨rfl, hresult⟩
            exact ⟨[b], bytes, rfl, hb, Nat.succ_le_succ (Nat.zero_le _), rfl, hresult⟩
        rw [hfield, ← h.done group value b result hgroup hvalue hb]
        cases hturn : turn group value b with
        | exceeds => simp
        | done result' =>
          simp only [Option.some.injEq, Prod.mk.injEq, LebTurn.done.injEq]
          exact ⟨fun h => ⟨h.2.symm, h.1⟩, fun h => ⟨h.2, h.1.symm⟩⟩
        | more value' => exact absurd hturn (h.ended group value b value' hgroup hb)
      · have hb := Nat.le_of_not_lt hb
        by_cases hnext : group + 1 < limit
        · obtain ⟨value', hturn, hnum⟩ := h.more group value b hnext hvalue hb
          have hpow : 2 ^ (7 * (group + 1)) = 2 ^ (7 * group) * 128 := by
            rw [Nat.mul_add, pow_add]
            rfl
          have hbound : num value' < 2 ^ (7 * (group + 1)) := by
            rw [hnum, hpow]
            calc num value + 2 ^ (7 * group) * (b.toNat % 128)
                < 2 ^ (7 * group) + 2 ^ (7 * group) * (b.toNat % 128) :=
                Nat.add_lt_add_right hvalue _
              _ = 2 ^ (7 * group) * (b.toNat % 128 + 1) := by ring
              _ ≤ 2 ^ (7 * group) * 128 := Nat.mul_le_mul_left _ (Nat.mod_lt _ (by decide))
          have hstep : ∀ value'' : Int, (num value' : Int) + 2 ^ (7 * (group + 1)) * value'' =
              num value + 2 ^ (7 * group) * (b.toNat % 128 + 128 * value'') := by
            intro value''
            rw [hnum, Nat.mul_add, pow_add]
            push_cast
            ring
          rw [hturn]
          dsimp only
          rw [ih (by omega) hbound]
          constructor
          · rintro ⟨field, rest, rfl, hfield, hlength, rfl, hresult, hrange⟩
            refine ⟨b :: field, rest, rfl, ?_, Nat.succ_le_succ hlength, ?_, ?_, hrange⟩
            · obtain ⟨c, field, rfl⟩ := List.exists_cons_of_ne_nil hfield.ne_nil
              exact ⟨hb, hfield⟩
            · rw [List.length_cons]
              omega
            · rw [hresult, hstep, lebValue_cons last b hfield.ne_nil]
          · rintro ⟨field, rest, hbytes, hfield, hlength, rfl, hresult, hrange⟩
            obtain ⟨c, field, rfl⟩ := List.exists_cons_of_ne_nil hfield.ne_nil
            obtain ⟨rfl, rfl⟩ := List.cons.inj hbytes
            cases field with
            | nil => exact absurd hfield (Nat.not_lt.2 hb)
            | cons d field =>
              refine ⟨d :: field, rest, rfl, hfield.2, Nat.le_of_succ_le_succ hlength, ?_,
                ?_, hrange⟩
              · simp only [List.length_cons]
                omega
              · rw [hresult, hstep, lebValue_cons last b (List.cons_ne_nil _ _)]
        · -- No group may follow the last one there may be.
          obtain rfl : fuel = 0 := by omega
          have hnone : ¬ ∃ field rest, b :: bytes = field ++ rest ∧ Terminated field ∧
              field.length ≤ 0 + 1 ∧ n = group + field.length ∧
              val result = num value + 2 ^ (7 * group) * lebValue last field ∧
              low ≤ val result ∧ val result < high := by
            rintro ⟨field, rest, hbytes, hfield, hlength, -⟩
            obtain ⟨c, field, rfl⟩ := List.exists_cons_of_ne_nil hfield.ne_nil
            obtain ⟨rfl, -⟩ := List.cons.inj hbytes
            obtain rfl := List.length_eq_zero_iff.1 (Nat.le_zero.1 (Nat.le_of_succ_le_succ hlength))
            exact Nat.not_lt.2 hb hfield
          refine iff_of_false ?_ hnone
          cases hturn : turn group value b with
          | exceeds => exact fun h => by cases h
          | done result' => exact absurd hturn (h.unended group value b result' hgroup hb)
          | more value' => exact fun h => by cases h

end

/-! ## Bits of a group -/

/-- What holds of 256 bytes holds of every byte. -/
theorem forall_byte {p : UInt8 → Prop} (h : ∀ i : Fin 256, p (UInt8.ofNat i))
    (b : UInt8) : p b := by
  have hb := h ⟨b.toNat, b.toNat_lt⟩
  rwa [UInt8.ofNat_toNat] at hb

theorem group_bits (b : UInt8) : (b &&& 0x7f).toNat = b.toNat % 128 :=
  forall_byte (p := fun b => (b &&& 0x7f).toNat = b.toNat % 128) (by decide +kernel) b

theorem group_continues (b : UInt8) : b &&& 0x80 = 0 ↔ b.toNat < 128 :=
  forall_byte (p := fun b => b &&& 0x80 = 0 ↔ b.toNat < 128) (by decide +kernel) b

theorem group_sign (b : UInt8) : b &&& 0x40 ≠ 0 ↔ 64 ≤ b.toNat % 128 :=
  forall_byte (p := fun b => b &&& 0x40 ≠ 0 ↔ 64 ≤ b.toNat % 128) (by decide +kernel) b

theorem group_fits (b : UInt8) : b &&& 0xf0 = 0 ↔ b.toNat < 16 :=
  forall_byte (p := fun b => b &&& 0xf0 = 0 ↔ b.toNat < 16) (by decide +kernel) b

/-- A group is put above the groups before it. -/
theorem or_group {value shift : Nat} (h : value < 2 ^ shift) (bits : Nat) :
    value ||| (bits <<< shift) = value + 2 ^ shift * bits := by
  rw [Nat.or_comm, Nat.shiftLeft_eq, Nat.mul_comm bits, ← Nat.two_pow_add_eq_or_of_lt h,
    Nat.add_comm]

/-! ## Unsigned fields -/

/-- A group of an unsigned field, unless it is the last one there may be with too many bits. -/
theorem ulebTurn_eq {group value : Nat} {b : UInt8} (hvalue : value < 2 ^ (7 * group))
    (h : group = 4 → b.toNat < 16) :
    ulebTurn group value b = if b.toNat < 128 then .done (value + 2 ^ (7 * group) * (b.toNat % 128))
      else .more (value + 2 ^ (7 * group) * (b.toNat % 128)) := by
  rw [ulebTurn, if_neg fun hexceeds => hexceeds.2 ((group_fits b).2 (h hexceeds.1))]
  dsimp only
  rw [or_group hvalue, group_bits]
  simp only [group_continues]

theorem ulebTurn_exceeds {value : Nat} {b : UInt8} (h : 16 ≤ b.toNat) :
    ulebTurn 4 value b = .exceeds := by
  rw [ulebTurn, if_pos ⟨rfl, fun hzero => Nat.not_lt.2 h ((group_fits b).1 hzero)⟩]

/-- The value of a group that is not the last one there may be stays below the width. -/
theorem group_small {group value : Nat} (hgroup : group < 4) (hvalue : value < 2 ^ (7 * group))
    (b : UInt8) : value + 2 ^ (7 * group) * (b.toNat % 128) < 2 ^ 28 := by
  have hpow : 2 ^ (7 * group) * 128 ≤ 2 ^ 28 := by
    calc 2 ^ (7 * group) * 128 = 2 ^ (7 * group + 7) := (pow_add 2 (7 * group) 7).symm
      _ ≤ 2 ^ 28 := Nat.pow_le_pow_right (by decide) (by omega)
  calc value + 2 ^ (7 * group) * (b.toNat % 128)
      < 2 ^ (7 * group) + 2 ^ (7 * group) * (b.toNat % 128) := Nat.add_lt_add_right hvalue _
    _ = 2 ^ (7 * group) * (b.toNat % 128 + 1) := by ring
    _ ≤ 2 ^ (7 * group) * 128 := Nat.mul_le_mul_left _ (Nat.mod_lt _ (by decide))
    _ ≤ 2 ^ 28 := hpow

/-- What a group of an unsigned field leads to depends on its highest bit. -/
theorem ulebTurn_ended {group value value' : Nat} {b : UInt8} (hb : b.toNat < 128) :
    ulebTurn group value b ≠ .more value' := by
  unfold ulebTurn
  split
  · exact nofun
  · rw [if_pos ((group_continues b).2 hb)]
    exact nofun

/-- A byte that continues does not end a number. -/
theorem ulebTurn_unended {group value result : Nat} {b : UInt8} (hb : 128 ≤ b.toNat) :
    ulebTurn group value b ≠ .done result := by
  unfold ulebTurn
  split
  · exact nofun
  · rw [if_neg fun h => Nat.not_lt.2 hb ((group_continues b).1 h)]
    exact nofun

/-- An unsigned field of 32 bits. -/
theorem turns_uleb :
    Turns ulebTurn id (fun value : Nat => (value : Int)) unsignedLast 5 0 (2 ^ 32) where
  done group value b result hgroup hvalue hb := by
    have hvalue : value < 2 ^ (7 * group) := hvalue
    rw [unsignedLast, id]
    by_cases hfits : group = 4 → b.toNat < 16
    · have hsmall : value + 2 ^ (7 * group) * (b.toNat % 128) < 2 ^ 32 := by
        by_cases hlast : group = 4
        · subst hlast
          have := hfits rfl
          omega
        · have := group_small (by omega) hvalue b
          omega
      rw [ulebTurn_eq hvalue hfits, if_pos hb, LebTurn.done.injEq]
      constructor
      · rintro rfl
        exact ⟨by push_cast; rfl, Int.natCast_nonneg _, by exact_mod_cast hsmall⟩
      · rintro ⟨hresult, -⟩
        exact_mod_cast hresult.symm
    · obtain ⟨rfl, hlarge⟩ := Classical.not_imp.1 hfits
      rw [ulebTurn_exceeds (Nat.le_of_not_lt hlarge)]
      refine iff_of_false nofun ?_
      rintro ⟨hresult, -, hhigh⟩
      omega
  ended group value b value' _ hb := ulebTurn_ended hb
  more group value b hgroup hvalue hb := by
    have hvalue : value < 2 ^ (7 * group) := hvalue
    rw [ulebTurn_eq hvalue (by omega), if_neg (Nat.not_lt.2 hb)]
    exact ⟨_, rfl, rfl⟩
  unended group value b result _ hb := ulebTurn_unended hb

/-! ## Signed fields -/

/-- The group that is put above the groups before it. -/
theorem toNat_or_group {value : UInt64} {group : Nat} (hgroup : 7 * (group + 1) < 64)
    (hvalue : value.toNat < 2 ^ (7 * group)) (b : UInt8) :
    (value ||| ((b &&& 0x7f).toUInt64 <<< UInt64.ofNat (group * 7))).toNat =
      value.toNat + 2 ^ (7 * group) * (b.toNat % 128) := by
  have hshift : (UInt64.ofNat (group * 7)).toNat % 64 = 7 * group := by
    rw [UInt64.toNat_ofNat']
    omega
  have hsmall : 2 ^ (7 * group) * 128 ≤ 2 ^ 63 := by
    calc 2 ^ (7 * group) * 128 = 2 ^ (7 * group + 7) := (pow_add 2 (7 * group) 7).symm
      _ ≤ 2 ^ 63 := Nat.pow_le_pow_right (by decide) (by omega)
  have hbits : b.toNat % 128 * 2 ^ (7 * group) < 2 ^ 64 := by
    calc b.toNat % 128 * 2 ^ (7 * group) ≤ 128 * 2 ^ (7 * group) :=
          Nat.mul_le_mul_right _ (Nat.mod_lt _ (by decide)).le
      _ = 2 ^ (7 * group) * 128 := Nat.mul_comm _ _
      _ ≤ 2 ^ 63 := hsmall
      _ < 2 ^ 64 := by decide
  rw [UInt64.toNat_or, UInt64.toNat_shiftLeft, hshift, UInt8.toNat_toUInt64, group_bits,
    Nat.shiftLeft_eq, Nat.mod_eq_of_lt hbits, ← Nat.shiftLeft_eq, or_group hvalue]

/-- A value that is extended with ones. -/
theorem toNat_or_ones {value : UInt64} {shift : Nat} (hshift : shift < 64)
    (hvalue : value.toNat < 2 ^ shift) :
    (value ||| ((0xffffffffffffffff : UInt64) <<< UInt64.ofNat shift)).toNat =
      value.toNat + (2 ^ 64 - 2 ^ shift) := by
  have hof : (UInt64.ofNat shift).toNat % 64 = shift := by
    rw [UInt64.toNat_ofNat']
    omega
  have hpow : 2 ^ shift * 2 ^ (64 - shift) = 2 ^ 64 := by
    rw [← pow_add]
    congr 1
    omega
  have hones : (0xffffffffffffffff : UInt64).toNat <<< shift % 2 ^ 64 =
      (2 ^ (64 - shift) - 1) <<< shift := by
    have hpos : 1 ≤ 2 ^ shift := Nat.one_le_two_pow
    have hle : 2 ^ shift ≤ 2 ^ 64 := Nat.pow_le_pow_right (by decide) hshift.le
    have hsplit : (2 ^ 64 - 1) * 2 ^ shift = 2 ^ 64 * (2 ^ shift - 1) + (2 ^ 64 - 2 ^ shift) := by
      rw [Nat.sub_mul, Nat.mul_sub, one_mul, mul_one]
      have : 2 ^ 64 ≤ 2 ^ 64 * 2 ^ shift := Nat.le_mul_of_pos_right _ hpos
      omega
    rw [Nat.shiftLeft_eq, Nat.shiftLeft_eq]
    show (2 ^ 64 - 1) * 2 ^ shift % 2 ^ 64 = _
    rw [hsplit, Nat.mul_add_mod, Nat.mod_eq_of_lt (by omega), Nat.sub_mul, Nat.mul_comm, hpow,
      one_mul]
  rw [UInt64.toNat_or, UInt64.toNat_shiftLeft, hof, hones, or_group hvalue, Nat.mul_sub, hpow,
    mul_one]

/-- A number of 64 bits in two's complement. -/
theorem toInt_of_lt {value : UInt64} (h : value.toNat < 2 ^ 63) :
    value.toInt64.toInt = value.toNat := by
  show value.toBitVec.toInt = value.toBitVec.toNat
  rw [BitVec.toInt_eq_toNat_cond, if_pos]
  show 2 * value.toNat < 2 ^ 64
  omega

/-- A number from the upper half is negative as a signed one. -/
theorem toInt_of_le {value : UInt64} (h : 2 ^ 63 ≤ value.toNat) :
    value.toInt64.toInt = value.toNat - 2 ^ 64 := by
  show value.toBitVec.toInt = value.toBitVec.toNat - 2 ^ 64
  rw [BitVec.toInt_eq_toNat_cond, if_neg]
  · rfl
  · show ¬ 2 * value.toNat < 2 ^ 64
    omega

theorem signedLast_range (b : UInt8) : -64 ≤ signedLast b ∧ signedLast b < 64 := by
  unfold signedLast
  split <;> omega

/-- The value after a signed group has its range. -/
theorem signed_range {bits group value : Nat} (hgroup : 7 * (group + 1) ≤ bits)
    (hvalue : value < 2 ^ (7 * group)) (b : UInt8) :
    -2 ^ (bits - 1) ≤ (value : Int) + 2 ^ (7 * group) * signedLast b ∧
      (value : Int) + 2 ^ (7 * group) * signedLast b < 2 ^ (bits - 1) := by
  obtain ⟨hlow, hhigh⟩ := signedLast_range b
  have hvalue : (value : Int) < 2 ^ (7 * group) := by exact_mod_cast hvalue
  have hpow : (2 : Int) ^ (7 * group) * 64 ≤ 2 ^ (bits - 1) := by
    calc (2 : Int) ^ (7 * group) * 64 = 2 ^ (7 * group + 6) := (pow_add 2 (7 * group) 6).symm
      _ ≤ 2 ^ (bits - 1) := pow_le_pow_right₀ (by decide) (by omega)
  constructor
  · have := mul_le_mul_of_nonneg_left hlow (Int.natCast_nonneg (2 ^ (7 * group)))
    push_cast at this
    omega
  · have := mul_le_mul_of_nonneg_left (Int.le_sub_one_of_lt hhigh)
      (Int.natCast_nonneg (2 ^ (7 * group)))
    push_cast at this
    omega

/-- What the check of the partial last group lets through. -/
def Passes (bits group : Nat) (byte : UInt8) : Prop :=
  let remaining := bits - group * 7
  let sign := (1 : UInt8) <<< UInt8.ofNat (remaining - 1)
  let highMask := (0x7f : UInt8) &&& ~~~(((1 : UInt8) <<< UInt8.ofNat remaining) - 1)
  ¬ (remaining < 7 ∧
    (byte &&& 0x80 ≠ 0 ∨ byte &&& highMask ≠ if byte &&& sign = 0 then 0 else highMask))

theorem passes_of_le {bits group : Nat} (h : 7 * (group + 1) ≤ bits) (b : UInt8) :
    Passes bits group b := fun hpasses => by omega

theorem slebTurn_exceeds {bits group : Nat} {value : UInt64} {b : UInt8}
    (h : ¬ Passes bits group b) :
    slebTurn bits group value b = .exceeds := if_pos (not_not.1 h)

/-- A group of a signed field that is followed by another one. -/
theorem slebTurn_more {bits group : Nat} {value : UInt64} {b : UInt8} (h : Passes bits group b)
    (hb : 128 ≤ b.toNat) :
    slebTurn bits group value b =
      .more (value ||| ((b &&& 0x7f).toUInt64 <<< UInt64.ofNat (group * 7))) := by
  unfold slebTurn
  rw [if_neg h]
  dsimp only
  rw [if_neg fun hzero => Nat.not_lt.2 hb ((group_continues b).1 hzero)]

/-- The last group of a signed field extends the value by its sign. -/
theorem toInt_extended {group : Nat} {value : UInt64} {b : UInt8} (hgroup : 7 * (group + 1) < 64)
    (hvalue : value.toNat < 2 ^ (7 * group)) :
    (if b &&& 0x40 ≠ 0 ∧ group * 7 + 7 < 64 then
        value ||| ((b &&& 0x7f).toUInt64 <<< UInt64.ofNat (group * 7)) |||
          ((0xffffffffffffffff : UInt64) <<< UInt64.ofNat (group * 7 + 7))
      else value ||| ((b &&& 0x7f).toUInt64 <<< UInt64.ofNat (group * 7))).toInt64.toInt =
      value.toNat + 2 ^ (7 * group) * signedLast b := by
  have hfield := toNat_or_group hgroup hvalue b
  have hpow : 2 ^ (7 * group) * 128 = 2 ^ (group * 7 + 7) := by
    rw [Nat.mul_comm group]
    exact (pow_add 2 (7 * group) 7).symm
  have hwidth : 2 ^ (group * 7 + 7) ≤ 2 ^ 63 := Nat.pow_le_pow_right (by decide) (by omega)
  have hgroups : ∀ k, b.toNat % 128 < k → value.toNat + 2 ^ (7 * group) * (b.toNat % 128) <
      2 ^ (7 * group) * k := by
    intro k hk
    calc value.toNat + 2 ^ (7 * group) * (b.toNat % 128)
        < 2 ^ (7 * group) + 2 ^ (7 * group) * (b.toNat % 128) := Nat.add_lt_add_right hvalue _
      _ = 2 ^ (7 * group) * (b.toNat % 128 + 1) := by ring
      _ ≤ 2 ^ (7 * group) * k := Nat.mul_le_mul_left _ hk
  by_cases hsign : b &&& 0x40 ≠ 0
  · have hlarge := (group_sign b).1 hsign
    have hsmall := hgroups 128 (Nat.mod_lt _ (by decide))
    rw [if_pos ⟨hsign, by omega⟩, toInt_of_le, toNat_or_ones (by omega), hfield, signedLast,
      if_neg (Nat.not_lt.2 hlarge)]
    · have hpow : (2 : Int) ^ (7 * group) * 128 = 2 ^ (group * 7 + 7) := by exact_mod_cast hpow
      have hle : 2 ^ (group * 7 + 7) ≤ 2 ^ 64 := by omega
      rw [Nat.cast_add, Nat.cast_sub hle]
      push_cast
      rw [mul_sub, hpow]
      ring
    · rw [hfield]
      omega
    · rw [toNat_or_ones (by omega) (by rw [hfield]; omega), hfield]
      omega
  · have hsmall := lt_of_not_ge fun h => hsign ((group_sign b).2 h)
    have := hgroups 64 hsmall
    rw [if_neg fun h => hsign h.1, toInt_of_lt (by rw [hfield]; omega), hfield, signedLast,
      if_pos hsmall]
    push_cast
    rfl

/-- The last group of a signed field. -/
theorem slebTurn_done {bits group : Nat} {value : UInt64} {b : UInt8} (h : Passes bits group b)
    (hgroup : 7 * (group + 1) < 64) (hvalue : value.toNat < 2 ^ (7 * group)) (hb : b.toNat < 128)
    (hrange : bits = 32 → -2 ^ 31 ≤ (value.toNat : Int) + 2 ^ (7 * group) * signedLast b ∧
      (value.toNat : Int) + 2 ^ (7 * group) * signedLast b < 2 ^ 31) :
    slebTurn bits group value b = .done (value.toNat + 2 ^ (7 * group) * signedLast b) := by
  unfold slebTurn
  rw [if_neg h]
  dsimp only
  rw [if_pos ((group_continues b).2 hb), toInt_extended hgroup hvalue, if_neg]
  rintro ⟨rfl, hout⟩
  have := hrange rfl
  omega

/-- A byte that ends a number does not continue it. -/
theorem slebTurn_ended {bits group : Nat} {value value' : UInt64} {b : UInt8} (hb : b.toNat < 128) :
    slebTurn bits group value b ≠ .more value' := by
  have hdone : ∀ signed : Int, (if bits = 32 ∧ (signed < -2 ^ 31 ∨ 2 ^ 31 ≤ signed) then
      (LebTurn.exceeds : LebTurn UInt64 Int) else .done signed) ≠ .more value' := by
    intro signed
    split <;> exact nofun
  by_cases h : Passes bits group b
  · unfold slebTurn
    rw [if_neg h]
    dsimp only
    rw [if_pos ((group_continues b).2 hb)]
    exact hdone _
  · rw [slebTurn_exceeds h]
    exact nofun

/-- A byte that continues does not end a signed number. -/
theorem slebTurn_unended {bits group : Nat} {value : UInt64} {result : Int} {b : UInt8}
    (hb : 128 ≤ b.toNat) : slebTurn bits group value b ≠ .done result := by
  by_cases h : Passes bits group b
  · rw [slebTurn_more h hb]
    exact nofun
  · rw [slebTurn_exceeds h]
    exact nofun

/-- The last group that a field of 32 bits may have holds four of them, -/
theorem passes_four (b : UInt8) (hb : b.toNat < 128) :
    Passes 32 4 b ↔ -8 ≤ signedLast b ∧ signedLast b < 8 :=
  forall_byte (p := fun b => b.toNat < 128 → (Passes 32 4 b ↔ -8 ≤ signedLast b ∧ signedLast b < 8))
    (by unfold Passes signedLast; decide +kernel) b hb

/-- and that of a field of 64 bits holds one of them. -/
theorem passes_nine (b : UInt8) (hb : b.toNat < 128) :
    Passes 64 9 b ↔ -1 ≤ signedLast b ∧ signedLast b < 1 :=
  forall_byte (p := fun b => b.toNat < 128 → (Passes 64 9 b ↔ -1 ≤ signedLast b ∧ signedLast b < 1))
    (by unfold Passes signedLast; decide +kernel) b hb

/-- That one bit is the sign of the value, or the value has none. -/
theorem slebTurn_nine {value : UInt64} {b : UInt8} (h : Passes 64 9 b)
    (hvalue : value.toNat < 2 ^ 63) (hb : b.toNat < 128) :
    slebTurn 64 9 value b = .done (value.toNat + 2 ^ 63 * signedLast b) := by
  have hbits : ∀ c : UInt8, c.toNat < 128 → -1 ≤ signedLast c ∧ signedLast c < 1 →
      c = 0 ∨ c = 0x7f :=
    forall_byte (by unfold signedLast; decide +kernel)
  have hdone : slebTurn 64 9 value b =
      .done (value ||| ((b &&& 0x7f).toUInt64 <<< UInt64.ofNat (9 * 7))).toInt64.toInt := by
    unfold slebTurn
    rw [if_neg h]
    dsimp only
    rw [if_pos ((group_continues b).2 hb), if_neg, if_neg]
    · exact fun hconsumed => absurd hconsumed.2 (by decide)
    · exact fun hbits => absurd hbits.1 (by decide)
  rw [hdone, LebTurn.done.injEq]
  rcases hbits b hb ((passes_nine b hb).1 h) with rfl | rfl
  · have hzero : ((0 : UInt8) &&& 0x7f).toUInt64 <<< UInt64.ofNat (9 * 7) = 0 := by decide
    have hlast : signedLast 0 = 0 := by decide
    rw [hzero, UInt64.or_zero, toInt_of_lt hvalue, hlast, mul_zero, add_zero]
  · have hone : (((0x7f : UInt8) &&& 0x7f).toUInt64 <<< UInt64.ofNat (9 * 7)).toNat = 1 <<< 63 := by
      decide
    have hlast : signedLast 0x7f = -1 := by decide
    have hfield : (value ||| (((0x7f : UInt8) &&& 0x7f).toUInt64 <<< UInt64.ofNat (9 * 7))).toNat =
        value.toNat + 2 ^ 63 := by
      rw [UInt64.toNat_or, hone, or_group hvalue, mul_one]
    rw [toInt_of_le (by omega), hfield, hlast]
    push_cast
    ring

/-- A signed field of 32 or of 64 bits. The check of its partial last group is that of its range. -/
theorem turns_sleb {bits : Nat} (hbits : bits = 32 ∨ bits = 64) :
    Turns (slebTurn bits) UInt64.toNat id signedLast (groups bits) (-2 ^ (bits - 1))
      (2 ^ (bits - 1)) where
  done group value b result hgroup hvalue hb := by
    rw [id]
    have hdone : ∀ value' : Int, -2 ^ (bits - 1) ≤ value' ∧ value' < 2 ^ (bits - 1) →
        ((LebTurn.done value' : LebTurn UInt64 Int) = .done result ↔
          result = value' ∧ -2 ^ (bits - 1) ≤ result ∧ result < 2 ^ (bits - 1)) := by
      intro value' hrange
      rw [LebTurn.done.injEq]
      exact ⟨by rintro rfl; exact ⟨rfl, hrange⟩, fun h => h.1.symm⟩
    by_cases hnext : group + 1 < groups bits
    · unfold groups at hnext
      have hrange : -2 ^ (bits - 1) ≤ (value.toNat : Int) + 2 ^ (7 * group) * signedLast b ∧
          (value.toNat : Int) + 2 ^ (7 * group) * signedLast b < 2 ^ (bits - 1) :=
        signed_range (by omega) hvalue b
      rw [slebTurn_done (passes_of_le (by omega) b) (by omega) hvalue hb
        (by rintro rfl; exact hrange)]
      exact hdone _ hrange
    -- The range of the last group there may be is that of what passes its check.
    rcases hbits with rfl | rfl
    · obtain rfl : group = 4 := by unfold groups at hgroup hnext; omega
      by_cases hpasses : Passes 32 4 b
      · obtain ⟨hlow, hhigh⟩ := (passes_four b hb).1 hpasses
        have hrange : -2 ^ 31 ≤ (value.toNat : Int) + 2 ^ (7 * 4) * signedLast b ∧
            (value.toNat : Int) + 2 ^ (7 * 4) * signedLast b < 2 ^ 31 := by omega
        rw [slebTurn_done hpasses (by decide) hvalue hb fun _ => hrange]
        exact hdone _ hrange
      · have hout := (passes_four b hb).not.1 hpasses
        rw [slebTurn_exceeds hpasses]
        refine iff_of_false nofun ?_
        rintro ⟨rfl, hlow, hhigh⟩
        omega
    · obtain rfl : group = 9 := by unfold groups at hgroup hnext; omega
      by_cases hpasses : Passes 64 9 b
      · obtain ⟨hlow, hhigh⟩ := (passes_nine b hb).1 hpasses
        rw [slebTurn_nine hpasses hvalue hb]
        exact hdone _ (by omega)
      · have hout := (passes_nine b hb).not.1 hpasses
        rw [slebTurn_exceeds hpasses]
        refine iff_of_false nofun ?_
        rintro ⟨rfl, hlow, hhigh⟩
        omega
  ended group value b value' _ hb := slebTurn_ended hb
  more group value b hgroup hvalue hb := by
    unfold groups at hgroup
    exact ⟨_, slebTurn_more (passes_of_le (by omega) b) hb, toNat_or_group (by omega) hvalue b⟩
  unended group value b result _ hb := slebTurn_unended hb

/-! ## The readers -/

section
variable {V R : Type} {turn : Nat → V → UInt8 → LebTurn V R} {num : V → Nat} {val : R → Int}
  {last : UInt8 → Int} {limit : Nat} {low high : Int} {start : V} {exceeds unterminated : String}

/-- The loop over a slice reads the field that the slice starts with. -/
theorem sliceLeb_iff (h : Turns turn num val last limit low high) (hstart : num start = 0)
    (bytes : List UInt8) (result : R) (n : Nat) :
    sliceLeb turn limit 0 start bytes = some (result, n) ↔
      Encodes last limit low high bytes (val result) n := by
  rw [sliceLeb_eq_some h (Nat.zero_add _) (by rw [hstart]; exact Nat.one_pos)]
  simp only [hstart, Nat.mul_zero, pow_zero, Nat.cast_zero, zero_add, one_mul]
  constructor
  · rintro ⟨field, rest, hbytes, hfield, hlength, rfl, hresult, hrange⟩
    exact ⟨⟨field, rest, hbytes, rfl, hfield, hresult.symm⟩, hlength, hrange⟩
  · rintro ⟨⟨field, rest, hbytes, rfl, hfield, hresult⟩, hlength, hrange⟩
    exact ⟨field, rest, hbytes, hfield, hlength, rfl, hresult.symm, hrange⟩

/-- A slice of some bytes starts with the fields of the bytes that lie in it. -/
theorem encodes_append {bytes more : List UInt8} {value : Int} {n : Nat} :
    Encodes last limit low high bytes value n ↔
      Encodes last limit low high (bytes ++ more) value n ∧ n ≤ bytes.length := by
  constructor
  · rintro ⟨⟨field, rest, rfl, rfl, hfield⟩, hshort, hrange⟩
    refine ⟨⟨⟨field, rest ++ more, List.append_assoc _ _ _, rfl, hfield⟩, hshort, hrange⟩, ?_⟩
    rw [List.length_append]
    exact Nat.le_add_right _ _
  · rintro ⟨⟨⟨field, rest, hbytes, rfl, hfield⟩, hshort, hrange⟩, hlength⟩
    obtain ⟨rest', rfl⟩ := List.prefix_of_prefix_length_le ⟨rest, hbytes.symm⟩
      (List.prefix_append bytes more) hlength
    exact ⟨⟨field, rest', rfl, rfl, hfield⟩, hshort, hrange⟩

end

/-- A read gives one value, and moves the input once. -/
theorem Yields.unique {R : Type} {x : Read R} {w : Wire} {a b : R} {m n : Nat} (ha : Yields x w a m)
    (hb : Yields x w b n) : a = b ∧ m = n := by
  obtain ⟨w', hrun, hsame⟩ := ha
  obtain ⟨w'', hrun', hsame'⟩ := hb
  rw [hrun] at hrun'
  cases hrun'
  have hoffset : w.offset + m = w.offset + n := by
    have := congrArg Wire.offset (hsame.symm.trans hsame')
    exact this
  exact ⟨rfl, Nat.add_left_cancel hoffset⟩

/-- A reader of the wire and a decoder of windows accept just the fields of a kind, and agree. -/
structure Exact {R : Type} (read : Read R) (decode : List UInt8 → Option (R × Nat)) (val : R → Int)
    (last : UInt8 → Int) (limit : Nat) (low high : Int) : Prop where
  accepts : ∀ w result n, Yields read w result n ↔
    Encodes last limit low high w.rest (val result) n
  returns : ∀ w w' result, read w = (.ok result, w') →
    ∃ n, Encodes last limit low high w.rest (val result) n ∧ Same w' (w.skip n)
  window : ∀ w bytes more, w.rest = bytes ++ more → ∀ result n,
    decode bytes = some (result, n) ↔ Yields read w result n ∧ n ≤ bytes.length
  enough : ∀ w bytes more, w.rest = bytes ++ more → limit ≤ bytes.length → ∀ result n,
    decode bytes = some (result, n) ↔ Yields read w result n

/-- Loops whose bodies read fields of a kind are exact. -/
theorem Turns.exact {V R : Type} {turn : Nat → V → UInt8 → LebTurn V R} {num : V → Nat}
    {val : R → Int} {last : UInt8 → Int} {limit : Nat} {low high : Int} {start : V}
    (h : Turns turn num val last limit low high) (hstart : num start = 0)
    (exceeds unterminated : String) :
    Exact (lebLoop turn exceeds unterminated limit 0 start) (sliceLeb turn limit 0 start) val last
      limit low high := by
  have hreturns : ∀ w w' result, lebLoop turn exceeds unterminated limit 0 start w =
      (.ok result, w') →
      ∃ n, Encodes last limit low high w.rest (val result) n ∧ Same w' (w.skip n) := by
    intro w w' result hrun
    have hrest : w.rest = w.rest ++ [] := (List.append_nil _).symm
    cases hslice : sliceLeb turn limit 0 start w.rest with
    | none =>
      obtain ⟨e, w'', herror⟩ := sliceLeb_none hslice (.inr rfl) hrest
      rw [hrun] at herror
      cases herror
    | some field =>
      obtain ⟨-, -, -, w'', hok, hsame⟩ := sliceLeb_some hslice hrest
      rw [hrun] at hok
      cases hok
      exact ⟨field.2, (sliceLeb_iff h hstart _ _ _).1 hslice, hsame⟩
  have haccepts : ∀ w result n,
      Yields (lebLoop turn exceeds unterminated limit 0 start) w result n ↔
      Encodes last limit low high w.rest (val result) n := by
    intro w result n
    constructor
    · rintro ⟨w', hrun, hsame⟩
      obtain ⟨m, hencodes, hsame'⟩ := hreturns w w' result hrun
      obtain ⟨-, rfl⟩ := Yields.unique ⟨w', hrun, hsame⟩ ⟨w', hrun, hsame'⟩
      exact hencodes
    · intro hencodes
      have hslice := (sliceLeb_iff h hstart _ _ _).2 hencodes
      exact (sliceLeb_some hslice (List.append_nil _).symm).2.2.2
  have hwindow : ∀ w bytes more, w.rest = bytes ++ more → ∀ result n,
      sliceLeb turn limit 0 start bytes = some (result, n) ↔
        Yields (lebLoop turn exceeds unterminated limit 0 start) w result n ∧ n ≤ bytes.length := by
    intro w bytes more hrest result n
    rw [sliceLeb_iff h hstart, haccepts, hrest]
    exact encodes_append
  refine ⟨haccepts, hreturns, hwindow, fun w bytes more hrest hlength result n => ?_⟩
  rw [hwindow w bytes more hrest]
  exact and_iff_left_of_imp fun hyields => ((haccepts _ _ _).1 hyields).short.trans hlength

/-- **The LEB128 readers accept the fields that fit, and agree.** The reads of an unsigned field of
32 bits and of a signed one of 32 or 64 bits accept just the fields of at most as many groups as the
width needs, minimal or not, whose value fits, with this value and their length. Nothing else gives
a value. The decoders of a window give what these reads give, when it holds the field. -/
theorem leb_exact :
    Exact uleb windowUleb (fun value : Nat => (value : Int)) unsignedLast 5 0 (2 ^ 32) ∧
    Exact (sleb 32) (decodeSleb 32) id signedLast 5 (-2 ^ 31) (2 ^ 31) ∧
    Exact (sleb 64) (decodeSleb 64) id signedLast 10 (-2 ^ 63) (2 ^ 63) := by
  refine ⟨?_, (turns_sleb (.inl rfl)).exact rfl _ _, (turns_sleb (.inr rfl)).exact rfl _ _⟩
  rw [uleb_eq]
  exact turns_uleb.exact rfl _ _

end Ondas.Ghw
