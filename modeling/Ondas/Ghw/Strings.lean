import Ondas.Ghw.Leb

/-!
# The string table

The string section writes every string as what it adds to a prefix of the string before it. Its
terminator, and groups of five bits after it, give the length that the next string shares
(`Groups`). `Written` is this format, for a list of strings that follows some string. The reader
carries the string before, the shared length and the bytes decoded so far from one string to the
next (`stringTurn`). It accepts just the tables of the format whose sizes and counts are kept
(`strings_exact`), with these strings, and names what is wrong with others (`Fault`). Its additions
are parameters: they never reach 32 bits, whatever they would do there.
-/

namespace Ondas.Ghw

open Library Wire

/-! ## The reader -/

/-- `usize::overflowing_add`: the sum modulo the word, and whether it does not fit. -/
def overflowingAdd (a b : Nat) : Nat × Bool :=
  ((a + b) % (Types.usizeMax + 1), decide (Types.usizeMax < a + b))

/-- A text of Latin-1 bytes. -/
def latin1 (bytes : List UInt8) : String := String.ofList (bytes.map fun b => Char.ofNat b.toNat)

/-- What `Wire::strings` carries from one string to the next. -/
structure Pool where
  strings : List String
  previous : List UInt8
  nextPrefix : Nat
  total : Nat

namespace Wire

/-- The body of the loop over the groups of a shared length, after its terminator. -/
def prefixTurn (group value : Nat) (byte : UInt8) : LebTurn Nat Nat :=
  if byte &&& 0x60 ≠ 0 ∨ 35 ≤ 5 * group then .exceeds
  else
    let value := value ||| ((byte &&& 0x1f).toNat <<< (5 * group))
    if byte &&& 0x80 = 0 then .done value else .more value

/-- The shared length that a terminator starts. The seventh group after it is refused. -/
def nextPrefix (terminator : UInt8) : Read Nat :=
  if terminator &&& 0x80 = 0 then pure (terminator &&& 0x1f).toNat
  else lebLoop prefixTurn "invalid five-bit string prefix" "invalid five-bit string prefix" 7 1
    (terminator &&& 0x1f).toNat

section
variable (add : Nat → Nat → Nat × Bool) (size : Nat)

/-- The loop over the bytes of a string, after those it shares, with its terminator. Each turn reads
a byte. -/
def suffixLoop (total : Nat) : Nat → List UInt8 → Read (List UInt8 × UInt8)
  | 0, _ => Decoder.fail (malformed "truncated field")
  | fuel + 1, previous => do
    let byte ← byte
    if byte &&& 0x60 = 0 then pure (previous, byte)
    else do
      ensure (decide ((add total previous.length).1 < size))
        (malformed "string pool exceeds advertised size")
      suffixLoop total fuel (previous ++ [byte])

/-- The body of the loop over the strings. -/
def stringTurn (p : Pool) : Read Pool := do
  ensure (decide (p.nextPrefix ≤ p.previous.length))
    (malformed "string prefix exceeds preceding string")
  let fuel ← Decoder.look fun w => w.rest.length + 1
  let string ← suffixLoop add size p.total fuel (p.previous.take p.nextPrefix)
  let sum := add p.total string.1.length
  ensure (!sum.2) (malformed "string pool size overflow")
  ensure (decide (sum.1 ≤ size)) (malformed "string pool exceeds advertised size")
  let next ← nextPrefix string.2
  ensure (decide (next ≤ Types.usizeMax)) (malformed "string prefix overflow")
  pure { strings := p.strings ++ [latin1 string.1], previous := string.1, nextPrefix := next,
         total := sum.1 }

/-- The loop over the strings. -/
def stringLoop : Nat → Pool → Read Pool
  | 0, p => pure p
  | n + 1, p => do
    let p ← stringTurn add size p
    stringLoop n p

end

/-- `Wire::strings`, with the addition of its sizes. -/
def stringsWith (add : Nat → Nat → Nat × Bool) : Read (List String) := do
  marker "STR\x00"
  zeros
  let count ← count "string"
  let size ← Wire.count "decoded string byte"
  let left ← Decoder.look left
  ensure (decide (count ≤ left)) (malformed "string count exceeds remaining input")
  let pool ← stringLoop add size count ⟨[""], [], 0, 0⟩
  ensure (decide (pool.nextPrefix = 0)) (malformed "nonzero final string prefix")
  marker "EOS\x00"
  pure pool.strings

/-- `Wire::strings`. -/
def strings : Read (List String) := stringsWith overflowingAdd

end Wire

/-! ## The format -/

/-- The groups of a shared length: five bits each, with the highest bit set when another one
follows. -/
structure Groups (groups : List UInt8) : Prop where
  five : ∀ b ∈ groups, b &&& 0x60 = 0
  ends : Terminated groups
  short : groups.length ≤ 7

/-- The shared length that groups give, the least significant one first. -/
def groupsValue : List UInt8 → Nat
  | [] => 0
  | b :: rest => b.toNat % 32 + 32 * groupsValue rest

/-- A byte of a string, which is none of its groups. -/
def IsText (bytes : List UInt8) : Prop := ∀ b ∈ bytes, b &&& 0x60 ≠ 0

/-- Some strings written after a string and a shared length, up to the last string and the length
that the string after it would share. -/
inductive Written : List UInt8 → Nat → List (List UInt8) → List UInt8 → List UInt8 → Nat → Prop
  | nil (previous : List UInt8) (shared : Nat) : Written previous shared [] [] previous shared
  | cons {previous string groups bytes last : List UInt8} {shared final : Nat}
      {strings : List (List UInt8)} :
      shared ≤ previous.length → shared ≤ string.length →
      previous.take shared = string.take shared → IsText string → Groups groups →
      Written string (groupsValue groups) strings bytes last final →
      Written previous shared (string :: strings) (string.drop shared ++ groups ++ bytes) last final

/-- The bytes that some strings decode to. -/
def decodedLength (strings : List (List UInt8)) : Nat := (strings.map List.length).sum

/-! ## Groups of a shared length -/

/-- The bits of a group of a shared length. -/
theorem five_bits (b : UInt8) : (b &&& 0x1f).toNat = b.toNat % 32 :=
  forall_byte (p := fun b => (b &&& 0x1f).toNat = b.toNat % 32) (by decide +kernel) b

/-- A group is put above the groups before it. -/
theorem prefixTurn_eq {group value : Nat} {b : UInt8} (hgroup : group < 7)
    (hvalue : value < 2 ^ (5 * group)) (hb : b &&& 0x60 = 0) :
    prefixTurn group value b =
      if b.toNat < 128 then .done (value + 2 ^ (5 * group) * (b.toNat % 32))
      else .more (value + 2 ^ (5 * group) * (b.toNat % 32)) := by
  have hpasses : ¬ (b &&& 0x60 ≠ 0 ∨ 35 ≤ 5 * group) := by
    rintro (hne | hlarge)
    · exact hne hb
    · omega
  rw [prefixTurn, if_neg hpasses]
  dsimp only
  rw [or_group hvalue, five_bits]
  simp only [group_continues]

theorem prefixTurn_exceeds {group value : Nat} {b : UInt8} (h : b &&& 0x60 ≠ 0 ∨ 7 ≤ group) :
    prefixTurn group value b = .exceeds := by
  rw [prefixTurn, if_pos (h.imp_right fun h => by omega)]

/-- What the groups before and a group come to stays below the next group. -/
theorem groups_lt {group value : Nat} (hvalue : value < 2 ^ (5 * group)) (b : UInt8) :
    value + 2 ^ (5 * group) * (b.toNat % 32) < 2 ^ (5 * (group + 1)) := by
  calc value + 2 ^ (5 * group) * (b.toNat % 32)
      < 2 ^ (5 * group) + 2 ^ (5 * group) * (b.toNat % 32) := Nat.add_lt_add_right hvalue _
    _ = 2 ^ (5 * group) * (b.toNat % 32 + 1) := by ring
    _ ≤ 2 ^ (5 * group) * 32 := Nat.mul_le_mul_left _ (Nat.mod_lt _ (by decide))
    _ = 2 ^ (5 * (group + 1)) := (pow_add 2 (5 * group) 5).symm

/-- The loop reads the groups that follow, as many as there may be. The induction is on how many. -/
theorem sliceLeb_spelled {fuel group value : Nat} (hfuel : group + fuel = 8)
    (hvalue : value < 2 ^ (5 * group)) (bytes : List UInt8) (result n : Nat) :
    sliceLeb prefixTurn fuel group value bytes = some (result, n) ↔
      ∃ groups rest, bytes = groups ++ rest ∧ (∀ b ∈ groups, b &&& 0x60 = 0) ∧ Terminated groups ∧
        group + groups.length ≤ 7 ∧ n = group + groups.length ∧
          result = value + 2 ^ (5 * group) * groupsValue groups := by
  induction fuel generalizing group value bytes with
  | zero =>
    refine ⟨(fun h => by cases h), ?_⟩
    rintro ⟨groups, rest, -, -, -, hlength, -⟩
    omega
  | succ fuel ih =>
    cases bytes with
    | nil =>
      refine ⟨(fun h => by cases h), ?_⟩
      rintro ⟨groups, rest, hbytes, -, hends, -⟩
      exact absurd (List.append_eq_nil_iff.1 hbytes.symm).1 hends.ne_nil
    | cons b bytes =>
      rw [sliceLeb]
      by_cases hpasses : b &&& 0x60 ≠ 0 ∨ 7 ≤ group
      · rw [prefixTurn_exceeds hpasses]
        refine iff_of_false (fun h => by cases h) ?_
        rintro ⟨groups, rest, hbytes, hfive, hends, hlength, -⟩
        obtain ⟨c, groups, rfl⟩ := List.exists_cons_of_ne_nil hends.ne_nil
        obtain ⟨rfl, -⟩ := List.cons.inj hbytes
        rcases hpasses with hne | hgroup
        · exact hne (hfive b List.mem_cons_self)
        · rw [List.length_cons] at hlength
          omega
      obtain ⟨hb, hgroup⟩ := not_or.1 hpasses
      have hb : b &&& 0x60 = 0 := not_not.1 hb
      have hgroup : group < 7 := Nat.lt_of_not_le hgroup
      rw [prefixTurn_eq hgroup hvalue hb]
      by_cases hlast : b.toNat < 128
      · rw [if_pos hlast]
        dsimp only
        constructor
        · intro h
          cases h
          refine ⟨[b], bytes, rfl, ?_, hlast, hgroup, rfl, ?_⟩
          · intro c hc
            rwa [List.mem_singleton.1 hc]
          · rw [groupsValue, groupsValue, Nat.mul_zero, Nat.add_zero]
        · rintro ⟨groups, rest, hbytes, hfive, hends, -, rfl, rfl⟩
          obtain ⟨c, groups, rfl⟩ := List.exists_cons_of_ne_nil hends.ne_nil
          obtain ⟨rfl, -⟩ := List.cons.inj hbytes
          cases groups with
          | nil => rw [groupsValue, groupsValue, Nat.mul_zero, Nat.add_zero]; rfl
          | cons d groups => exact absurd hends.1 (Nat.not_le.2 hlast)
      · have hmarked := Nat.le_of_not_lt hlast
        have hstep : ∀ groups, value + 2 ^ (5 * group) * (b.toNat % 32) +
            2 ^ (5 * (group + 1)) * groupsValue groups =
              value + 2 ^ (5 * group) * groupsValue (b :: groups) := by
          intro groups
          rw [groupsValue, Nat.mul_add 5, pow_add]
          ring
        rw [if_neg hlast]
        dsimp only
        rw [ih (by omega) (groups_lt hvalue b)]
        constructor
        · rintro ⟨groups, rest, rfl, hfive, hends, hlength, rfl, rfl⟩
          refine ⟨b :: groups, rest, rfl, List.forall_mem_cons.2 ⟨hb, hfive⟩, ?_, ?_, ?_,
            hstep groups⟩
          · obtain ⟨c, groups, rfl⟩ := List.exists_cons_of_ne_nil hends.ne_nil
            exact ⟨hmarked, hends⟩
          · rw [List.length_cons]
            omega
          · rw [List.length_cons]
            omega
        · rintro ⟨groups, rest, hbytes, hfive, hends, hlength, rfl, rfl⟩
          obtain ⟨c, groups, rfl⟩ := List.exists_cons_of_ne_nil hends.ne_nil
          obtain ⟨rfl, rfl⟩ := List.cons.inj hbytes
          obtain ⟨-, hfive⟩ := List.forall_mem_cons.1 hfive
          rw [List.length_cons] at hlength ⊢
          cases groups with
          | nil => exact absurd hends (Nat.not_lt.2 hmarked)
          | cons d groups =>
            exact ⟨d :: groups, rest, rfl, hfive, hends.2, by omega, by omega, (hstep _).symm⟩

section
variable {w w' : Wire} {t : UInt8} {groups more : List UInt8}

/-- A terminator without its highest bit is the only group. -/
theorem terminated_cons (hends : Terminated (t :: groups)) :
    groups = [] ∧ t.toNat < 128 ∨ 128 ≤ t.toNat ∧ Terminated groups := by
  cases groups with
  | nil => exact .inl ⟨rfl, hends⟩
  | cons c groups => exact .inr hends

/-- A terminator and the groups after it give the shared length. -/
theorem nextPrefix_yields (h : Groups (t :: groups)) (hrest : w.rest = groups ++ more) :
    Yields (nextPrefix t) w (groupsValue (t :: groups)) groups.length := by
  have hvalue : (t &&& 0x1f).toNat < 2 ^ (5 * 1) := by
    rw [five_bits]
    exact Nat.mod_lt _ (by decide)
  have hshort := h.short
  rw [List.length_cons] at hshort
  unfold nextPrefix
  rcases terminated_cons h.ends with ⟨rfl, hlast⟩ | ⟨hmarked, hends⟩
  · rw [if_pos ((group_continues t).2 hlast), five_bits]
    exact ⟨w, rfl, rfl⟩
  · rw [if_neg fun hzero => Nat.not_lt.2 hmarked ((group_continues t).1 hzero)]
    have hslice := (sliceLeb_spelled (show 1 + 7 = 8 from rfl) hvalue (groups ++ more)
      (groupsValue (t :: groups)) (1 + groups.length)).2 ⟨groups, more, rfl,
        (List.forall_mem_cons.1 h.five).2,
        hends, by omega, rfl, by rw [groupsValue, five_bits]; rfl⟩
    have hlength : 1 + groups.length - 1 = groups.length := Nat.add_sub_cancel_left 1 _
    rw [← hlength]
    exact (sliceLeb_some hslice (hrest.trans (List.append_nil _).symm)).2.2.2

/-- A shared length is that of a terminator and the groups after it. -/
theorem nextPrefix_ok {shared : Nat} (ht : t &&& 0x60 = 0)
    (h : nextPrefix t w = (.ok shared, w')) :
    ∃ groups more, w.rest = groups ++ more ∧ Groups (t :: groups) ∧
      shared = groupsValue (t :: groups) ∧ Same w' (w.skip groups.length) := by
  have hvalue : (t &&& 0x1f).toNat < 2 ^ (5 * 1) := by
    rw [five_bits]
    exact Nat.mod_lt _ (by decide)
  unfold nextPrefix at h
  by_cases hlast : t.toNat < 128
  · rw [if_pos ((group_continues t).2 hlast)] at h
    cases h
    refine ⟨[], w.rest, rfl, ⟨?_, hlast, Nat.succ_le_succ (Nat.zero_le 6)⟩, ?_, rfl⟩
    · intro b hb
      rwa [List.mem_singleton.1 hb]
    · rw [groupsValue, groupsValue, five_bits, Nat.mul_zero, Nat.add_zero]
  · rw [if_neg fun hzero => hlast ((group_continues t).1 hzero)] at h
    have hrest : w.rest = w.rest ++ [] := (List.append_nil _).symm
    cases hslice : sliceLeb prefixTurn 7 1 (t &&& 0x1f).toNat w.rest with
    | none =>
      obtain ⟨e, w'', herror⟩ := sliceLeb_none hslice (.inr rfl) hrest
      rw [h] at herror
      cases herror
    | some field =>
      obtain ⟨-, -, -, w'', hok, hsame⟩ := sliceLeb_some hslice hrest
      rw [h] at hok
      cases hok
      obtain ⟨groups, rest, hgroups, hfive, hends, hlength, hn, hshared⟩ :=
        (sliceLeb_spelled rfl hvalue _ _ _).1 hslice
      refine ⟨groups, rest, hgroups, ⟨List.forall_mem_cons.2 ⟨ht, hfive⟩, ?_, ?_⟩, ?_, ?_⟩
      · obtain ⟨c, groups, rfl⟩ := List.exists_cons_of_ne_nil hends.ne_nil
        exact ⟨Nat.le_of_not_lt hlast, hends⟩
      · rw [List.length_cons]
        omega
      · rw [hshared, groupsValue, five_bits]
        rfl
      · rwa [hn, Nat.add_sub_cancel_left] at hsame

/-- Groups of a shared length that are marked, and then a byte that is none or one too many. -/
structure Malformed (marked : List UInt8) (bad : UInt8) : Prop where
  five : ∀ b ∈ marked, b &&& 0x60 = 0 ∧ 128 ≤ b.toNat
  short : marked.length ≤ 7
  refused : bad &&& 0x60 ≠ 0 ∨ marked.length = 7

/-- The loop refuses such groups. The induction is on the marked ones. -/
theorem sliceLeb_malformed {fuel group value : Nat} {marked more : List UInt8} {bad : UInt8}
    (hfuel : group + fuel = 8) (hvalue : value < 2 ^ (5 * group))
    (hfive : ∀ b ∈ marked, b &&& 0x60 = 0 ∧ 128 ≤ b.toNat) (hshort : group + marked.length ≤ 7)
    (hrefused : bad &&& 0x60 ≠ 0 ∨ group + marked.length = 7) {exceeds unterminated : String}
    (hrest : w.rest = marked ++ bad :: more) :
    ∃ v w', lebLoop prefixTurn exceeds unterminated fuel group value w =
      (.error (malformed exceeds v), w') := by
  induction marked generalizing fuel group value w with
  | nil =>
    obtain ⟨fuel, rfl⟩ : ∃ n, fuel = n + 1 := ⟨fuel - 1, by rw [List.length_nil] at hshort; omega⟩
    obtain ⟨w', hbyte, hsame⟩ := byte_eq hrest
    rw [lebLoop, Decoder.bind_of_ok hbyte, prefixTurn_exceeds (hrefused.imp_right fun h => by
      rw [List.length_nil] at h; omega)]
    exact ⟨w', w', rfl⟩
  | cons b marked ih =>
    rw [List.length_cons] at hshort hrefused
    obtain ⟨⟨hb, hmarked⟩, hfive⟩ := List.forall_mem_cons.1 hfive
    obtain ⟨fuel, rfl⟩ : ∃ n, fuel = n + 1 := ⟨fuel - 1, by omega⟩
    obtain ⟨w', hbyte, hsame⟩ := byte_eq hrest
    rw [lebLoop, Decoder.bind_of_ok hbyte, prefixTurn_eq (by omega) hvalue hb,
      if_neg (Nat.not_lt.2 hmarked)]
    refine ih (by omega) (groups_lt hvalue b) hfive (by omega)
      (hrefused.imp_right fun h => by omega) ?_
    rw [hsame.rest, skip_rest, hrest]
    rfl

/-- Malformed groups are refused. -/
theorem nextPrefix_malformed {marked : List UInt8} {bad : UInt8} (h : Malformed (t :: marked) bad)
    (hrest : w.rest = marked ++ bad :: more) :
    ∃ v w', nextPrefix t w = (.error (malformed "invalid five-bit string prefix" v), w') := by
  obtain ⟨⟨-, hmarked⟩, hfive⟩ := List.forall_mem_cons.1 h.five
  have hshort := h.short
  have hrefused := h.refused
  rw [List.length_cons] at hshort hrefused
  have hvalue : (t &&& 0x1f).toNat < 2 ^ (5 * 1) := by
    rw [five_bits]
    exact Nat.mod_lt _ (by decide)
  unfold nextPrefix
  rw [if_neg fun hzero => Nat.not_lt.2 hmarked ((group_continues t).1 hzero)]
  exact sliceLeb_malformed rfl hvalue hfive (by omega) (hrefused.imp_right fun h => by omega) hrest

end

/-! ## One string -/

/-- The sum of two sizes, which fits. -/
def exactAdd (a b : Nat) : Nat × Bool := (a + b, false)

section
variable {size total : Nat} {w w' : Wire} {t : UInt8} {suffix more : List UInt8}

/-- A byte of a string is kept, when it fits. -/
theorem suffixLoop_text {b : UInt8} (hb : b &&& 0x60 ≠ 0) (hbyte : byte w = (.ok b, w'))
    (fuel : Nat) (previous : List UInt8) :
    suffixLoop exactAdd size total (fuel + 1) previous w =
      if total + previous.length < size then
        suffixLoop exactAdd size total fuel (previous ++ [b]) w'
      else (.error (malformed "string pool exceeds advertised size" w'), w') := by
  rw [suffixLoop, Decoder.bind_of_ok hbyte, if_neg hb]
  show (ensure (decide (total + previous.length < size)) _ >>= _) w' = _
  by_cases hroom : total + previous.length < size
  · rw [if_pos hroom, decide_eq_true hroom]
    rfl
  · rw [if_neg hroom, decide_eq_false hroom]
    rfl

/-- The bytes of a string that fits are read up to its terminator. -/
theorem suffixLoop_yields (hsuffix : IsText suffix) (ht : t &&& 0x60 = 0) {fuel : Nat}
    (hfuel : suffix.length < fuel) {previous : List UInt8}
    (hfits : total + (previous ++ suffix).length ≤ size) (hrest : w.rest = suffix ++ t :: more) :
    Yields (suffixLoop exactAdd size total fuel previous) w (previous ++ suffix, t)
      (suffix.length + 1) := by
  induction suffix generalizing fuel previous w with
  | nil =>
    obtain ⟨fuel, rfl⟩ : ∃ n, fuel = n + 1 := ⟨fuel - 1, by omega⟩
    obtain ⟨w', hbyte, hsame⟩ := byte_eq hrest
    refine ⟨w', ?_, hsame⟩
    rw [suffixLoop, Decoder.bind_of_ok hbyte, if_pos ht, List.append_nil]
    rfl
  | cons b suffix ih =>
    obtain ⟨fuel, rfl⟩ : ∃ n, fuel = n + 1 := ⟨fuel - 1, by omega⟩
    obtain ⟨hb, hsuffix⟩ := List.forall_mem_cons.1 hsuffix
    have hfuel : suffix.length < fuel := Nat.lt_of_succ_lt_succ hfuel
    rw [List.append_cons] at hfits
    obtain ⟨w', hbyte, hsame⟩ := byte_eq hrest
    have hnext : w'.rest = suffix ++ t :: more := by rw [hsame.rest, skip_rest, hrest]; rfl
    obtain ⟨w'', hrun, hend⟩ := ih hsuffix hfuel hfits hnext
    have hroom : total + previous.length < size := by
      rw [List.length_append, List.length_append, List.length_singleton] at hfits
      omega
    refine ⟨w'', ?_, ?_⟩
    · rw [suffixLoop_text hb hbyte, if_pos hroom, hrun, ← List.append_cons]
    · have hskip := hsame.skip (suffix.length + 1)
      rw [skip_skip, Nat.add_comm 1] at hskip
      exact hend.trans hskip

/-- The bytes of a string that does not fit are refused before they are kept. -/
theorem suffixLoop_exceeds (hsuffix : IsText suffix) {fuel : Nat} (hfuel : suffix.length < fuel)
    {previous : List UInt8} (hne : suffix ≠ [])
    (hlarge : size < total + (previous ++ suffix).length)
    (hrest : w.rest = suffix ++ more) :
    ∃ v w', suffixLoop exactAdd size total fuel previous w =
      (.error (malformed "string pool exceeds advertised size" v), w') := by
  induction suffix generalizing fuel previous w with
  | nil => exact absurd rfl hne
  | cons b suffix ih =>
    obtain ⟨fuel, rfl⟩ : ∃ n, fuel = n + 1 := ⟨fuel - 1, by omega⟩
    obtain ⟨hb, hsuffix⟩ := List.forall_mem_cons.1 hsuffix
    have hfuel : suffix.length < fuel := Nat.lt_of_succ_lt_succ hfuel
    obtain ⟨w', hbyte, hsame⟩ := byte_eq hrest
    have hnext : w'.rest = suffix ++ more := by rw [hsame.rest, skip_rest, hrest]; rfl
    rw [suffixLoop_text hb hbyte]
    by_cases hroom : total + previous.length < size
    · rw [if_pos hroom]
      rw [List.append_cons] at hlarge
      refine ih hsuffix hfuel ?_ hlarge hnext
      rintro rfl
      rw [List.append_nil, List.length_append, List.length_singleton] at hlarge
      omega
    · rw [if_neg hroom]
      exact ⟨w', w', rfl⟩

/-- The loop over the bytes of a string reads just such ones. -/
theorem suffixLoop_ok {fuel : Nat} {previous string : List UInt8}
    (h : suffixLoop exactAdd size total fuel previous w = (.ok (string, t), w')) :
    ∃ suffix more, w.rest = suffix ++ t :: more ∧ string = previous ++ suffix ∧ IsText suffix ∧
      t &&& 0x60 = 0 ∧ (string = previous ∨ total + string.length ≤ size) ∧
        Same w' (w.skip (suffix.length + 1)) := by
  induction fuel generalizing previous w with
  | zero => cases h
  | succ fuel ih =>
    cases hrest : w.rest with
    | nil =>
      obtain ⟨v, hend, -⟩ := byte_end hrest
      rw [suffixLoop, Decoder.bind_of_error hend] at h
      cases h
    | cons b bytes =>
      obtain ⟨v, hbyte, hsame⟩ := byte_eq hrest
      by_cases hb : b &&& 0x60 = 0
      · rw [suffixLoop, Decoder.bind_of_ok hbyte, if_pos hb] at h
        cases h
        exact ⟨[], bytes, rfl, (List.append_nil _).symm, nofun, hb, .inl rfl, hsame⟩
      · rw [suffixLoop_text hb hbyte] at h
        by_cases hroom : total + previous.length < size
        · rw [if_pos hroom] at h
          obtain ⟨suffix, more, hsuffix, hstring, htext, ht, hfits, hend⟩ := ih h
          have hbytes : bytes = suffix ++ t :: more := by
            rw [← hsuffix, hsame.rest, skip_rest, hrest]
            rfl
          have hskip := hsame.skip (suffix.length + 1)
          rw [skip_skip, Nat.add_comm 1] at hskip
          refine ⟨b :: suffix,
            more, by rw [hbytes]; rfl, ?_, List.forall_mem_cons.2 ⟨hb, htext⟩, ht,
            .inr ?_, hend.trans hskip⟩
          · rw [hstring, ← List.append_cons]
          · rcases hfits with rfl | hfits
            · rw [List.length_append, List.length_singleton]
              omega
            · exact hfits
        · rw [if_neg hroom] at h
          cases h

end

/-- Past a guard its condition holds, and nothing was read. -/
theorem ensure_eq_ok {condition : Bool} {error : Wire → Error} {w w' : Wire} {u : Unit}
    (h : ensure condition error w = (.ok u, w')) : condition = true ∧ w' = w := by
  cases condition with
  | false => cases h
  | true => cases h; exact ⟨rfl, rfl⟩

/-- The state after some more strings, up to the last one and the length shared with the next
one. -/
def Pool.after (p : Pool) (strings : List (List UInt8)) (last : List UInt8) (final : Nat) : Pool :=
  { strings := p.strings ++ strings.map latin1, previous := last, nextPrefix := final,
    total := p.total + decodedLength strings }

/-- Groups give less than 35 bits. -/
theorem groupsValue_lt (groups : List UInt8) : groupsValue groups < 2 ^ (5 * groups.length) := by
  induction groups with
  | nil => exact Nat.one_pos
  | cons b groups ih =>
    rw [groupsValue, List.length_cons, Nat.mul_succ, pow_add]
    have := Nat.mod_lt b.toNat (show 0 < 32 by decide)
    omega

section
variable {size : Nat} {p p' : Pool} {w w' : Wire} {t : UInt8} {string : List UInt8}

/-- A turn of the loop over the strings, when its bytes were read. -/
theorem stringTurn_eq (hshared : p.nextPrefix ≤ p.previous.length)
    (hrun : suffixLoop exactAdd size p.total (w.rest.length + 1) (p.previous.take p.nextPrefix) w =
      (.ok (string, t), w')) :
    stringTurn exactAdd size p w =
      if p.total + string.length ≤ size then
        (do
          let next ← nextPrefix t
          ensure (decide (next ≤ Types.usizeMax)) (malformed "string prefix overflow")
          pure (p.after [string] string next)) w'
      else (.error (malformed "string pool exceeds advertised size" w'), w') := by
  unfold stringTurn
  rw [decide_eq_true hshared]
  show (suffixLoop exactAdd size p.total (w.rest.length + 1) (p.previous.take p.nextPrefix) >>= _) w
    = _
  rw [Decoder.bind_of_ok hrun]
  show (ensure (decide (p.total + string.length ≤ size)) _ >>= _) w' = _
  by_cases hfits : p.total + string.length ≤ size
  · rw [if_pos hfits, decide_eq_true hfits]
    rfl
  · rw [if_neg hfits, decide_eq_false hfits]
    rfl

/-- A turn that fails in the bytes of its string. -/
theorem stringTurn_error {e : Error} (hshared : p.nextPrefix ≤ p.previous.length)
    (hrun : suffixLoop exactAdd size p.total (w.rest.length + 1) (p.previous.take p.nextPrefix) w =
      (.error e, w')) :
    stringTurn exactAdd size p w = (.error e, w') := by
  unfold stringTurn
  rw [decide_eq_true hshared]
  show (suffixLoop exactAdd size p.total (w.rest.length + 1) (p.previous.take p.nextPrefix) >>= _) w
    = _
  rw [Decoder.bind_of_error hrun]

/-- A turn whose string would share more than there is. -/
theorem stringTurn_exceeds (hshared : p.previous.length < p.nextPrefix) :
    stringTurn exactAdd size p w =
      (.error (malformed "string prefix exceeds preceding string" w), w) := by
  unfold stringTurn
  rw [decide_eq_false (Nat.not_le.2 hshared)]
  rfl

/-- A string is read as it is written after the one before. -/
theorem stringTurn_yields {groups more : List UInt8} (hprevious : p.nextPrefix ≤ p.previous.length)
    (hshared : p.previous.take p.nextPrefix = string.take p.nextPrefix) (htext : IsText string)
    (hgroups : Groups groups) (hfits : p.total + string.length ≤ size)
    (hrest : w.rest = string.drop p.nextPrefix ++ groups ++ more) :
    Yields (stringTurn exactAdd size p) w (p.after [string] string (groupsValue groups))
      (string.drop p.nextPrefix ++ groups).length := by
  obtain ⟨t, groups, rfl⟩ := List.exists_cons_of_ne_nil hgroups.ends.ne_nil
  have happend : p.previous.take p.nextPrefix ++ string.drop p.nextPrefix = string := by
    rw [hshared, List.take_append_drop]
  have hfuel : (string.drop p.nextPrefix).length < w.rest.length + 1 := by
    rw [hrest, List.append_assoc, List.length_append]
    omega
  have hrest' : w.rest = string.drop p.nextPrefix ++ t :: (groups ++ more) := by
    rw [hrest, List.append_assoc]
    rfl
  have hfits' :
      p.total + (p.previous.take p.nextPrefix ++ string.drop p.nextPrefix).length ≤ size := by
    rw [happend]
    exact hfits
  obtain ⟨v, hrun, hsame⟩ := suffixLoop_yields (fun b hb => htext b (List.mem_of_mem_drop hb))
    (hgroups.five t List.mem_cons_self) hfuel hfits' hrest'
  rw [happend] at hrun
  have hnext : v.rest = groups ++ more := by
    rw [hsame.rest, skip_rest, hrest', ← List.drop_drop, List.drop_left, List.drop_one,
      List.tail_cons]
  obtain ⟨v', hrun', hsame'⟩ := nextPrefix_yields hgroups hnext
  have hsmall : groupsValue (t :: groups) ≤ Types.usizeMax := by
    calc groupsValue (t :: groups) ≤ 2 ^ (5 * (t :: groups).length) := (groupsValue_lt _).le
      _ ≤ 2 ^ (5 * 7) := Nat.pow_le_pow_right (by decide) (Nat.mul_le_mul_left 5 hgroups.short)
      _ ≤ Types.usizeMax := by decide
  refine ⟨v', ?_, ?_⟩
  · rw [stringTurn_eq hprevious hrun, if_pos hfits, Decoder.bind_of_ok hrun', decide_eq_true hsmall]
    rfl
  · have hskip := hsame.skip groups.length
    rw [skip_skip] at hskip
    rw [List.length_append, List.length_cons, Nat.add_comm groups.length, ← Nat.add_assoc]
    exact hsame'.trans hskip

/-- A turn of the loop reads just such a string. -/
theorem stringTurn_ok (h : stringTurn exactAdd size p w = (.ok p', w')) :
    ∃ string groups more, w.rest = string.drop p.nextPrefix ++ groups ++ more ∧
      p.nextPrefix ≤ p.previous.length ∧ p.nextPrefix ≤ string.length ∧
        p.previous.take p.nextPrefix = string.take p.nextPrefix ∧
          (IsText p.previous → IsText string) ∧ Groups groups ∧ p.total + string.length ≤ size ∧
            p' = p.after [string] string (groupsValue groups) ∧
              Same w' (w.skip (string.drop p.nextPrefix ++ groups).length) := by
  rcases Nat.lt_or_ge p.previous.length p.nextPrefix with hshared | hshared
  · rw [stringTurn_exceeds hshared] at h
    cases h
  rcases hrun : suffixLoop exactAdd size p.total (w.rest.length + 1)
      (p.previous.take p.nextPrefix) w with ⟨e | ⟨string, t⟩, v⟩
  · rw [stringTurn_error hshared hrun] at h
    cases h
  rw [stringTurn_eq hshared hrun] at h
  by_cases hfits : p.total + string.length ≤ size
  · rw [if_pos hfits] at h
    obtain ⟨suffix, more, hrest, rfl, htext, ht, -, hsame⟩ := suffixLoop_ok hrun
    have hlength : (p.previous.take p.nextPrefix).length = p.nextPrefix :=
      List.length_take_of_le hshared
    have htake : (p.previous.take p.nextPrefix ++ suffix).take p.nextPrefix =
        p.previous.take p.nextPrefix := List.take_left' hlength
    have hdrop : (p.previous.take p.nextPrefix ++ suffix).drop p.nextPrefix = suffix :=
      List.drop_left' hlength
    obtain ⟨next, v', hnext, hensure⟩ := Decoder.bind_eq_ok.1 h
    obtain ⟨groups, more', hgroups, hvalid, rfl, hsame'⟩ := nextPrefix_ok ht hnext
    obtain ⟨_, v'', hguard, hpure⟩ := Decoder.bind_eq_ok.1 hensure
    obtain ⟨-, rfl⟩ := ensure_eq_ok hguard
    cases hpure
    refine ⟨_, t :: groups, more', ?_, hshared, ?_, htake.symm, ?_, hvalid, hfits, rfl, ?_⟩
    · have hmore : more = groups ++ more' := by
        rw [← hgroups, hsame.rest, skip_rest, hrest, ← List.drop_drop, List.drop_left,
          List.drop_one,
          List.tail_cons]
      rw [hdrop, hrest, hmore, List.append_assoc]
      rfl
    · rw [List.length_append, hlength]
      exact Nat.le_add_right _ _
    · intro hprevious b hb
      rcases List.mem_append.1 hb with hb | hb
      · exact hprevious b (List.mem_of_mem_take hb)
      · exact htext b hb
    · have hskip := hsame.skip groups.length
      rw [skip_skip] at hskip
      rw [hdrop, List.length_append, List.length_cons, Nat.add_comm groups.length, ← Nat.add_assoc]
      exact hsame'.trans hskip
  · rw [if_neg hfits] at h
    cases h

end

/-! ## The loop over the strings -/

section
variable {size : Nat} {p p' : Pool} {w w' : Wire}

/-- Strings are appended to a pool one after another. -/
theorem Pool.after_after (p : Pool) (string : List UInt8) (shared : Nat)
    (strings : List (List UInt8)) (last : List UInt8) (final : Nat) :
    (p.after [string] string shared).after strings last final =
      p.after (string :: strings) last final := by
  simp only [Pool.after, decodedLength, List.map_cons, List.map_nil, List.append_assoc,
    List.singleton_append, List.sum_cons, List.sum_nil, Nat.add_zero, Nat.add_assoc]

/-- Strings that fit are read as they are written. The induction is on how they are written. -/
theorem stringLoop_yields {previous bytes last more : List UInt8} {shared final : Nat}
    {strings : List (List UInt8)} (h : Written previous shared strings bytes last final)
    (hprevious : p.previous = previous) (hshared : p.nextPrefix = shared)
    (hfits : p.total + decodedLength strings ≤ size) (hrest : w.rest = bytes ++ more) :
    Yields (stringLoop exactAdd size strings.length p) w (p.after strings last final)
      bytes.length := by
  induction h generalizing p w with
  | nil previous shared =>
    refine ⟨w, ?_, rfl⟩
    subst hprevious hshared
    show (Except.ok p, w) = _
    simp only [Pool.after, decodedLength, List.map_nil, List.append_nil, List.sum_nil, Nat.add_zero]
  | @cons previous string groups bytes last shared final strings hle _ htake htext hgroups _ ih =>
    subst hprevious hshared
    have hsum : decodedLength (string :: strings) = string.length + decodedLength strings := by
      rw [decodedLength, List.map_cons, List.sum_cons]
      rfl
    have hfirst : p.total + string.length ≤ size := by omega
    obtain ⟨v, hrun, hsame⟩ := stringTurn_yields hle htake htext hgroups hfirst
      (hrest.trans (List.append_assoc _ _ _))
    have hnext : v.rest = bytes ++ more := by
      rw [hsame.rest, skip_rest, hrest, List.append_assoc, List.drop_left]
    obtain ⟨v', hrun', hsame'⟩ := ih (p := p.after [string] string (groupsValue groups)) rfl rfl (by
      simp only [Pool.after, decodedLength, List.map_cons, List.map_nil, List.sum_cons,
        List.sum_nil]
      rw [hsum, decodedLength] at hfits
      omega) hnext
    refine ⟨v', ?_, ?_⟩
    · rw [List.length_cons, stringLoop, Decoder.bind_of_ok hrun, hrun', Pool.after_after]
    · have hskip := hsame.skip bytes.length
      rw [skip_skip] at hskip
      rw [List.length_append]
      exact hsame'.trans hskip

/-- The loop reads just such strings. The induction is on how many. -/
theorem stringLoop_ok {n : Nat} (htext : IsText p.previous) (htotal : p.total ≤ size)
    (h : stringLoop exactAdd size n p w = (.ok p', w')) :
    ∃ strings bytes more last final, w.rest = bytes ++ more ∧ strings.length = n ∧
      Written p.previous p.nextPrefix strings bytes last final ∧
        p.total + decodedLength strings ≤ size ∧ p' = p.after strings last final ∧
          Same w' (w.skip bytes.length) := by
  induction n generalizing p w with
  | zero =>
    cases h
    refine ⟨[], [], _, _, _, rfl, rfl, .nil _ _, htotal, ?_, rfl⟩
    simp only [Pool.after, decodedLength, List.map_nil, List.append_nil, List.sum_nil, Nat.add_zero]
  | succ n ih =>
    obtain ⟨q, v, hturn, hloop⟩ := Decoder.bind_eq_ok.1 h
    obtain ⟨string, groups, more, hrest, hle, hlength, htake, hstring, hgroups, hfits,
      rfl, hsame⟩ :=
      stringTurn_ok hturn
    have htotal' :
        (p.after [string] string (groupsValue groups)).total = p.total + string.length := by
      simp only [Pool.after, decodedLength, List.map_cons, List.map_nil, List.sum_cons,
        List.sum_nil,
        Nat.add_zero]
    obtain ⟨strings, bytes, more', last, final, hrest', rfl, hwritten, hsum, rfl, hsame'⟩ :=
      ih (hstring htext) (htotal'.trans_le hfits) hloop
    refine ⟨string :: strings, string.drop p.nextPrefix ++ groups ++ bytes, more', last, final, ?_,
      rfl, .cons hle hlength htake (hstring htext) hgroups hwritten, ?_,
      Pool.after_after _ _ _ _ _ _, ?_⟩
    · have hmore : more = bytes ++ more' := by
        rw [← hrest', hsame.rest, skip_rest, hrest, List.drop_left]
      rw [hrest, hmore, List.append_assoc (_ ++ _)]
    · rw [htotal'] at hsum
      simp only [decodedLength, List.map_cons, List.sum_cons] at hsum ⊢
      omega
    · have hskip := hsame.skip bytes.length
      rw [skip_skip] at hskip
      rw [List.length_append]
      exact hsame'.trans hskip

/-- The loop over more strings goes on after fewer. -/
theorem stringLoop_add (m n : Nat) (p : Pool) :
    stringLoop exactAdd size (m + n) p =
      stringLoop exactAdd size m p >>= stringLoop exactAdd size n := by
  induction m generalizing p with
  | zero => rw [Nat.zero_add]; rfl
  | succ m ih =>
    rw [Nat.succ_add, stringLoop, stringLoop, bind_assoc]
    congr 1
    funext q
    exact ih q

end

/-! ## Sums stay small -/

/-- A count is that of an `i32`. -/
theorem count_le {context : String} {n : Nat} {w w' : Wire} (h : count context w = (.ok n, w')) :
    n ≤ i32Max := by
  obtain ⟨m, v, -, hensure⟩ := Decoder.bind_eq_ok.1 h
  obtain ⟨_, v', hguard, hpure⟩ := Decoder.bind_eq_ok.1 hensure
  cases hpure
  exact of_decide_eq_true (ensure_eq_ok hguard).1

section
variable {add : Nat → Nat → Nat × Bool} (hadd : ∀ a b, a + b < 2 ^ 32 → add a b = exactAdd a b)
  {size : Nat} (hsize : size ≤ i32Max)
include hadd hsize

/-- The sums in the loop over the bytes of a string stay below 32 bits. -/
theorem suffixLoop_add {total : Nat} (htotal : total ≤ size) (fuel : Nat) {previous : List UInt8}
    (hprevious : previous.length ≤ size) :
    suffixLoop add size total fuel previous = suffixLoop exactAdd size total fuel previous := by
  induction fuel generalizing previous with
  | zero => rfl
  | succ fuel ih =>
    have hsum : add total previous.length = exactAdd total previous.length := by
      refine hadd _ _ ?_
      unfold i32Max at hsize
      omega
    rw [suffixLoop, suffixLoop, hsum]
    congr 1
    funext b
    refine if_congr Iff.rfl rfl ?_
    funext w
    refine Decoder.bind_congr_of_ok fun _ w' hguard => ?_
    have hroom : total + previous.length < size := of_decide_eq_true (ensure_eq_ok hguard).1
    rw [ih (by rw [List.length_append, List.length_singleton]; omega)]

/-- So do those of a turn, -/
theorem stringTurn_add {p : Pool} (htotal : p.total ≤ size) (hprevious : p.previous.length ≤ size) :
    stringTurn add size p = stringTurn exactAdd size p := by
  have htake : (p.previous.take p.nextPrefix).length ≤ size :=
    (List.length_take_le' _ _).trans hprevious
  funext w
  unfold stringTurn
  refine Decoder.bind_congr_of_ok fun _ w' _ => Decoder.bind_congr_of_ok fun fuel w'' _ => ?_
  rw [suffixLoop_add hadd hsize htotal fuel htake]
  refine Decoder.bind_congr_of_ok fun string v hrun => ?_
  obtain ⟨suffix, more, -, -, -, -, hfits, -⟩ := suffixLoop_ok hrun
  have hsum : add p.total string.1.length = exactAdd p.total string.1.length := by
    refine hadd _ _ ?_
    unfold i32Max at hsize
    rcases hfits with hstring | hfits
    · rw [hstring]
      omega
    · omega
  rw [hsum]

/-- and those of every run. -/
theorem stringLoop_addition (n : Nat) {p : Pool} (htotal : p.total ≤ size)
    (hprevious : p.previous.length ≤ size) :
    stringLoop add size n p = stringLoop exactAdd size n p := by
  induction n generalizing p with
  | zero => rfl
  | succ n ih =>
    funext w
    rw [stringLoop, stringLoop, stringTurn_add hadd hsize htotal hprevious]
    refine Decoder.bind_congr_of_ok fun q v hturn => ?_
    obtain ⟨string, groups, -, -, -, -, -, -, -, hfits, rfl, -⟩ := stringTurn_ok hturn
    have htotal' :
        (p.after [string] string (groupsValue groups)).total = p.total + string.length := by
      simp only [Pool.after, decodedLength, List.map_cons, List.map_nil, List.sum_cons,
        List.sum_nil,
        Nat.add_zero]
    rw [ih (htotal'.trans_le hfits) (Nat.le_trans (Nat.le_add_left _ _) hfits)]

end

/-! ## Malformed tables -/

/-- What is wrong where another string should be read, or where none should: the string before, the
length shared with it, the bytes decoded so far and the strings still to come, with the bytes there.
-/
inductive Fault (size : Nat) (previous : List UInt8) (shared total : Nat) :
    Nat → List UInt8 → String → Prop
  | shared {left : Nat} {bytes : List UInt8} : previous.length < shared →
      Fault size previous shared total (left + 1) bytes "string prefix exceeds preceding string"
  | size {left : Nat} {suffix more : List UInt8} {t : UInt8} : shared ≤ previous.length →
      IsText suffix → t &&& 0x60 = 0 → size < total + (shared + suffix.length) →
      Fault size previous shared total (left + 1) (suffix ++ t :: more)
        "string pool exceeds advertised size"
  | groups {left : Nat} {suffix marked more : List UInt8} {t bad : UInt8} :
      shared ≤ previous.length → IsText suffix → total + (shared + suffix.length) ≤ size →
      Malformed (t :: marked) bad →
      Fault size previous shared total (left + 1) (suffix ++ t :: (marked ++ bad :: more))
        "invalid five-bit string prefix"
  | final {bytes : List UInt8} : shared ≠ 0 →
      Fault size previous shared total 0 bytes "nonzero final string prefix"

/-- Such a string is refused. -/
theorem stringTurn_fault {size left : Nat} {p : Pool} {w : Wire} {message : String}
    (h : Fault size p.previous p.nextPrefix p.total (left + 1) w.rest message) :
    ∃ v w', stringTurn exactAdd size p w = (.error (malformed message v), w') := by
  have htake : ∀ suffix, p.nextPrefix ≤ p.previous.length →
      (p.previous.take p.nextPrefix ++ suffix).length = p.nextPrefix + suffix.length := by
    intro suffix hshared
    rw [List.length_append, List.length_take_of_le hshared]
  generalize hrest : w.rest = bytes at h
  cases h with
  | shared hshared => exact ⟨w, w, stringTurn_exceeds hshared⟩
  | @size _ suffix more t hshared htext ht hlarge =>
    have hfuel : suffix.length < w.rest.length + 1 := by
      rw [hrest, List.length_append]
      omega
    by_cases hempty : suffix = []
    · subst hempty
      obtain ⟨w', hbyte, -⟩ := byte_eq hrest
      have hrun : suffixLoop exactAdd size p.total (w.rest.length + 1)
          (p.previous.take p.nextPrefix) w = (.ok (p.previous.take p.nextPrefix, t), w') := by
        rw [suffixLoop, Decoder.bind_of_ok hbyte, if_pos ht]
        rfl
      have hlength := htake [] hshared
      rw [List.append_nil] at hlength
      rw [stringTurn_eq hshared hrun, if_neg (by omega)]
      exact ⟨w', w', rfl⟩
    · rw [← htake suffix hshared] at hlarge
      obtain ⟨v, w', hrun⟩ := suffixLoop_exceeds htext hfuel hempty hlarge hrest
      exact ⟨v, w', stringTurn_error hshared hrun⟩
  | @groups _ suffix marked more t bad hshared htext hfits hbad =>
    have hfuel : suffix.length < w.rest.length + 1 := by
      rw [hrest, List.length_append]
      omega
    rw [← htake suffix hshared] at hfits
    have ht := (hbad.five t List.mem_cons_self).1
    obtain ⟨v, hrun, hsame⟩ := suffixLoop_yields htext ht hfuel hfits hrest
    have hnext : v.rest = marked ++ bad :: more := by
      rw [hsame.rest, skip_rest, hrest, ← List.drop_drop, List.drop_left, List.drop_one,
      List.tail_cons]
    obtain ⟨v', w', hmalformed⟩ := nextPrefix_malformed hbad hnext
    rw [stringTurn_eq hshared hrun, if_pos hfits, Decoder.bind_of_error hmalformed]
    exact ⟨v', w', rfl⟩

/-! ## The section -/

section
variable {w w' : Wire}

/-- Bytes that are there are read. -/
theorem yields_fixed {bytes more : List UInt8} {n : Nat} (hlength : bytes.length = n)
    (hrest : w.rest = bytes ++ more) : Yields (fixed n) w bytes n := by
  rcases fixed_eq n w with ⟨-, w', hrun, hsame⟩ | ⟨hlt, -⟩
  · rw [hrest, List.take_left' hlength] at hrun
    exact ⟨w', hrun, hsame⟩
  · rw [hrest, List.length_append] at hlt
    omega

/-- A fixed number of bytes is what the input has next. -/
theorem fixed_ok {bytes : List UInt8} {n : Nat} (h : fixed n w = (.ok bytes, w')) :
    bytes.length = n ∧ (∃ more, w.rest = bytes ++ more) ∧ Same w' (w.skip n) := by
  rcases fixed_eq n w with ⟨hle, v, hrun, hsame⟩ | ⟨-, v, hrun, -⟩
  · rw [hrun] at h
    cases h
    exact ⟨List.length_take_of_le hle, ⟨_, (List.take_append_drop n w.rest).symm⟩, hsame⟩
  · rw [hrun] at h
    cases h

/-- A marker is read where it is written, -/
theorem yields_marker {expected : String} {more : List UInt8}
    (hlength : (ascii expected).length = 4)
    (hrest : w.rest = ascii expected ++ more) : Yields (marker expected) w () 4 := by
  obtain ⟨w', hrun, hsame⟩ := yields_fixed hlength hrest
  refine ⟨w', ?_, hsame⟩
  unfold marker
  rw [Decoder.bind_of_ok hrun, beq_self_eq_true]
  rfl

/-- and nowhere else. -/
theorem marker_ok {expected : String} {u : Unit} (h : marker expected w = (.ok u, w')) :
    (∃ more, w.rest = ascii expected ++ more) ∧ Same w' (w.skip 4) := by
  obtain ⟨bytes, v, hfixed, hensure⟩ := Decoder.bind_eq_ok.1 h
  obtain ⟨-, hrest, hsame⟩ := fixed_ok hfixed
  obtain ⟨hbytes, rfl⟩ := ensure_eq_ok hensure
  rw [beq_iff_eq.1 hbytes] at hrest
  exact ⟨hrest, hsame⟩

/-- Four zero bytes are read as the padding. -/
theorem yields_zeros {more : List UInt8} (hrest : w.rest = [0, 0, 0, 0] ++ more) :
    Yields zeros w () 4 := by
  obtain ⟨w', hrun, hsame⟩ := yields_fixed (show [0, 0, 0, 0].length = 4 from rfl) hrest
  exact ⟨w', Decoder.bind_of_ok hrun, hsame⟩

/-- The padding that is accepted is four zero bytes. -/
theorem zeros_ok {u : Unit} (h : zeros w = (.ok u, w')) :
    (∃ more, w.rest = [0, 0, 0, 0] ++ more) ∧ Same w' (w.skip 4) := by
  obtain ⟨bytes, v, hfixed, hensure⟩ := Decoder.bind_eq_ok.1 h
  obtain ⟨-, hrest, hsame⟩ := fixed_ok hfixed
  obtain ⟨hbytes, rfl⟩ := ensure_eq_ok hensure
  rw [beq_iff_eq.1 hbytes] at hrest
  exact ⟨hrest, hsame⟩

theorem Wire.Same.bigEndian {w w' : Wire} (h : Same w w') : w.bigEndian = w'.bigEndian := by
  have := congrArg Wire.bigEndian h
  exact this

/-- A count is read from four bytes. -/
theorem yields_count (context : String) {bytes more : List UInt8} (hlength : bytes.length = 4)
    (hcount : fromBytes w.bigEndian bytes ≤ i32Max) (hrest : w.rest = bytes ++ more) :
    Yields (count context) w (fromBytes w.bigEndian bytes) 4 := by
  obtain ⟨w', hrun, hsame⟩ := yields_fixed hlength hrest
  have hu32 : u32 w = (.ok (fromBytes w.bigEndian bytes), w') := by
    unfold u32
    rw [Decoder.bind_of_ok hrun]
    show (Except.ok (fromBytes w'.bigEndian bytes), w') = _
    rw [Same.bigEndian hsame]
    rfl
  refine ⟨w', ?_, hsame⟩
  unfold count
  rw [Decoder.bind_of_ok hu32, decide_eq_true hcount]
  rfl

/-- A count is made of four bytes in the byte order of the file. -/
theorem count_ok {context : String} {n : Nat} (h : count context w = (.ok n, w')) :
    (∃ bytes more, w.rest = bytes ++ more ∧ bytes.length = 4 ∧ fromBytes w.bigEndian bytes = n) ∧
      Same w' (w.skip 4) := by
  obtain ⟨m, v, hu32, hensure⟩ := Decoder.bind_eq_ok.1 h
  obtain ⟨bytes, v', hfixed, hlook⟩ := Decoder.bind_eq_ok.1 hu32
  obtain ⟨hlength, ⟨more, hrest⟩, hsame⟩ := fixed_ok hfixed
  obtain ⟨_, v'', hguard, hpure⟩ := Decoder.bind_eq_ok.1 hensure
  obtain ⟨-, rfl⟩ := ensure_eq_ok hguard
  cases hpure
  obtain ⟨hvalue, rfl⟩ : fromBytes v'.bigEndian bytes = n ∧ v' = w' := by
    cases hlook
    exact ⟨rfl, rfl⟩
  refine ⟨⟨bytes, more, hrest, hlength, ?_⟩, hsame⟩
  rw [← hvalue, Same.bigEndian hsame]
  rfl

/-- The head of a string section: its marker and a reserved field, how many strings there are, and
how many bytes they decode to at most. The body follows. -/
structure Header (w : Wire) (n size : Nat) (body : List UInt8) : Prop where
  rest : ∃ counted sized, w.rest =
    ascii "STR\x00" ++ ([0, 0, 0, 0] ++ (counted ++ (sized ++ body))) ∧
    counted.length = 4 ∧ sized.length = 4 ∧ fromBytes w.bigEndian counted = n ∧
      fromBytes w.bigEndian sized = size
  count : n ≤ i32Max
  size : size ≤ i32Max

/-- The rest of an input after some of its bytes. -/
theorem Wire.Same.rest_of_append {bytes more : List UInt8} {n : Nat} (h : Same w' (w.skip n))
    (hlength : bytes.length = n) (hrest : w.rest = bytes ++ more) : w'.rest = more := by
  rw [h.rest, skip_rest, hrest, List.drop_left' hlength]

/-- A section is read after its head, unless the input cannot have so many strings. -/
theorem stringsWith_header {n size : Nat} {body : List UInt8} (h : Header w n size body)
    (add : Nat → Nat → Nat × Bool) :
    ∃ v, Same v (w.skip 16) ∧ v.rest = body ∧ stringsWith add w =
      if n ≤ v.left then
        (do
          let pool ← stringLoop add size n ⟨[""], [], 0, 0⟩
          ensure (decide (pool.nextPrefix = 0)) (malformed "nonzero final string prefix")
          marker "EOS\x00"
          pure pool.strings) v
      else (.error (malformed "string count exceeds remaining input" v), v) := by
  obtain ⟨counted, sized, hrest, hcounted, hsized, hn, hsize⟩ := h.rest
  obtain ⟨w₁, hmarker, h₁⟩ := yields_marker (by decide) hrest
  have hrest₁ := h₁.rest_of_append (by decide) hrest
  obtain ⟨w₂, hzeros, h₂⟩ := yields_zeros hrest₁
  have hrest₂ := h₂.rest_of_append rfl hrest₁
  have hend₁ : w₁.bigEndian = w.bigEndian := h₁.bigEndian
  have hend₂ : w₂.bigEndian = w.bigEndian := h₂.bigEndian.trans hend₁
  obtain ⟨w₃, hcount, h₃⟩ := yields_count (w := w₂) "string" hcounted
    (by rw [hend₂]; exact hn.trans_le h.count) hrest₂
  have hrest₃ := h₃.rest_of_append hcounted hrest₂
  have hend₃ : w₃.bigEndian = w.bigEndian := h₃.bigEndian.trans hend₂
  obtain ⟨w₄, hsize', h₄⟩ := yields_count (w := w₃) "decoded string byte" hsized
    (by rw [hend₃]; exact hsize.trans_le h.size) hrest₃
  rw [hend₂] at hcount
  rw [hend₃] at hsize'
  have hsame : Same w₄ (w.skip 16) :=
    h₄.trans ((h₃.skip 4).trans (((h₂.skip 4).skip 4).trans (((h₁.skip 4).skip 4).skip 4)))
  refine ⟨w₄, hsame, h₄.rest_of_append hsized hrest₃, ?_⟩
  unfold stringsWith
  rw [Decoder.bind_of_ok hmarker, Decoder.bind_of_ok hzeros, Decoder.bind_of_ok hcount,
    Decoder.bind_of_ok hsize']
  show (ensure (decide (fromBytes w.bigEndian counted ≤ w₄.left)) _ >>= _) w₄ = _
  rw [hn, hsize]
  by_cases hleft : n ≤ w₄.left
  · rw [if_pos hleft, decide_eq_true hleft]
    rfl
  · rw [if_neg hleft, decide_eq_false hleft]
    rfl

/-- A section that is read has a head. -/
theorem stringsWith_ok {add : Nat → Nat → Nat × Bool} {result : List String}
    (h : stringsWith add w = (.ok result, w')) : ∃ n size body, Header w n size body := by
  obtain ⟨_, w₁, hmarker, h⟩ := Decoder.bind_eq_ok.1 h
  obtain ⟨_, w₂, hzeros, h⟩ := Decoder.bind_eq_ok.1 h
  obtain ⟨n, w₃, hcount, h⟩ := Decoder.bind_eq_ok.1 h
  obtain ⟨size, w₄, hsize, -⟩ := Decoder.bind_eq_ok.1 h
  obtain ⟨⟨more₁, hrest₁⟩, h₁⟩ := marker_ok hmarker
  obtain ⟨⟨more₂, hrest₂⟩, h₂⟩ := zeros_ok hzeros
  obtain ⟨⟨counted, more₃, hrest₃, hcounted, hn⟩, h₃⟩ := count_ok hcount
  obtain ⟨⟨sized, more₄, hrest₄, hsized, hsize'⟩, -⟩ := count_ok hsize
  have hend₁ : w₁.bigEndian = w.bigEndian := h₁.bigEndian
  have hend₂ : w₂.bigEndian = w.bigEndian := h₂.bigEndian.trans hend₁
  have hend₃ : w₃.bigEndian = w.bigEndian := h₃.bigEndian.trans hend₂
  have hmore₁ : more₁ = [0, 0, 0, 0] ++ more₂ :=
    (h₁.rest_of_append (by decide) hrest₁).symm.trans hrest₂
  have hmore₂ : more₂ = counted ++ more₃ := (h₂.rest_of_append rfl hrest₂).symm.trans hrest₃
  have hmore₃ : more₃ = sized ++ more₄ := (h₃.rest_of_append hcounted hrest₃).symm.trans hrest₄
  refine ⟨n, size, more₄, ⟨counted, sized, ?_, hcounted, hsized, ?_, ?_⟩, count_le hcount,
    count_le hsize⟩
  · rw [hrest₁, hmore₁, hmore₂, hmore₃]
  · rw [← hn, hend₂]
  · rw [← hsize', hend₃]

/-- Each string takes a byte at least. -/
theorem Written.length_le {previous bytes last : List UInt8} {shared final : Nat}
    {strings : List (List UInt8)} (h : Written previous shared strings bytes last final) :
    strings.length ≤ bytes.length := by
  induction h with
  | nil => exact Nat.le_refl 0
  | @cons _ string groups bytes _ shared _ strings _ _ _ _ hgroups _ ih =>
    have := List.length_pos_of_ne_nil hgroups.ends.ne_nil
    rw [List.length_cons, List.length_append, List.length_append]
    omega

/-- The state before the first string. -/
theorem start_after (strings : List (List UInt8)) (last : List UInt8) (final : Nat) :
    (⟨[""], [], 0, 0⟩ : Pool).after strings last final =
      ⟨"" :: strings.map latin1, last, final, decodedLength strings⟩ := by
  rw [Pool.after, Nat.zero_add]
  rfl

/-- A table that is written as the format says is read. -/
theorem stringsWith_yields {n size : Nat} {strings : List (List UInt8)}
    {bytes more last : List UInt8}
    (hlen : w.bytes.length ≤ w.len) (h : Header w n size (bytes ++ (ascii "EOS\x00" ++ more)))
    (hn : strings.length = n) (hfits : decodedLength strings ≤ size)
    (hwritten : Written [] 0 strings bytes last 0) :
    Yields (stringsWith exactAdd) w ("" :: strings.map latin1) (16 + bytes.length + 4) := by
  obtain ⟨v, hsame, hrest, hrun⟩ := stringsWith_header h exactAdd
  have hleft : n ≤ v.left := by
    have hbytes : v.bytes = w.bytes := by
      have := congrArg Wire.bytes hsame
      exact this
    have hlen' : v.len = w.len := by
      have := congrArg Wire.len hsame
      exact this
    have hlength := congrArg List.length hrest
    rw [Wire.rest, List.length_drop, List.length_append, hbytes] at hlength
    have := hwritten.length_le
    rw [Wire.left, hlen']
    omega
  obtain ⟨v', hloop, hsame'⟩ := stringLoop_yields (p := ⟨[""], [], 0, 0⟩) hwritten rfl rfl
    ((Nat.zero_add _).trans_le hfits) hrest
  obtain ⟨v'', hmarker, hsame''⟩ := yields_marker (by decide) (hsame'.rest_of_append rfl hrest)
  rw [if_pos hleft, ← hn, Decoder.bind_of_ok hloop, start_after] at hrun
  refine ⟨v'', ?_, ?_⟩
  · rw [hrun]
    exact Decoder.bind_of_ok hmarker
  · have hskip := (hsame'.skip 4).trans ((hsame.skip bytes.length).skip 4)
    rw [skip_skip, skip_skip] at hskip
    exact hsame''.trans hskip

/-- A table that is read is written as the format says. -/
theorem stringsWith_written {result : List String} (h : stringsWith exactAdd w = (.ok result, w')) :
    ∃ n size strings bytes more last, Header w n size (bytes ++ (ascii "EOS\x00" ++ more)) ∧
      strings.length = n ∧ decodedLength strings ≤ size ∧ Written [] 0 strings bytes last 0 ∧
        result = "" :: strings.map latin1 ∧ Same w' (w.skip (16 + bytes.length + 4)) := by
  obtain ⟨n, size, body, hheader⟩ := stringsWith_ok h
  obtain ⟨v, hsame, hrest, hrun⟩ := stringsWith_header hheader exactAdd
  rw [h] at hrun
  by_cases hleft : n ≤ v.left
  · rw [if_pos hleft] at hrun
    obtain ⟨pool, v', hloop, hensure⟩ := Decoder.bind_eq_ok.1 hrun.symm
    obtain ⟨_, v'', hguard, hmarker⟩ := Decoder.bind_eq_ok.1 hensure
    obtain ⟨_, u, hmarker, hpure⟩ := Decoder.bind_eq_ok.1 hmarker
    obtain ⟨hfinal, rfl⟩ := ensure_eq_ok hguard
    obtain ⟨⟨more, hmore⟩, hsame''⟩ := marker_ok hmarker
    cases hpure
    obtain ⟨strings, bytes, more', last, final, hbody, rfl, hwritten, hfits, rfl, hsame'⟩ :=
      stringLoop_ok (fun _ hb => absurd hb List.not_mem_nil) (Nat.zero_le size) hloop
    obtain rfl : final = 0 := of_decide_eq_true hfinal
    rw [start_after]
    have hmore' : more' = ascii "EOS\x00" ++ more := by
      rw [← hsame'.rest_of_append rfl hbody, hmore]
    rw [hrest, hmore'] at hbody
    subst hbody
    refine ⟨_, size, strings, bytes, more, last, hheader, rfl, (Nat.zero_add _).symm.trans_le hfits,
      hwritten, rfl, ?_⟩
    have hskip := (hsame'.skip 4).trans ((hsame.skip bytes.length).skip 4)
    rw [skip_skip, skip_skip] at hskip
    exact hsame''.trans hskip
  · rw [if_neg hleft] at hrun
    cases hrun

/-- A table that starts well and goes wrong is refused. -/
theorem stringsWith_fault {n size : Nat} {strings : List (List UInt8)}
    {bytes tail last : List UInt8} {final : Nat} {message : String}
    (h : Header w n size (bytes ++ tail)) (hn : strings.length ≤ n)
    (hfits : decodedLength strings ≤ size) (hwritten : Written [] 0 strings bytes last final)
    (hfault : Fault size last final (decodedLength strings) (n - strings.length) tail message) :
    ∃ v w', stringsWith exactAdd w = (.error (malformed
      (if n ≤ (w.skip 16).left then message else "string count exceeds remaining input") v),
        w') := by
  obtain ⟨v, hsame, hrest, hrun⟩ := stringsWith_header h exactAdd
  have hleft : v.left = (w.skip 16).left := by
    have := congrArg Wire.left hsame
    exact this
  rw [hrun, ← hleft]
  by_cases hroom : n ≤ v.left
  · rw [if_pos hroom, if_pos hroom]
    obtain ⟨v', hloop, hsame'⟩ := stringLoop_yields (p := ⟨[""], [], 0, 0⟩) hwritten rfl rfl
      ((Nat.zero_add _).trans_le hfits) hrest
    have htail := hsame'.rest_of_append rfl hrest
    have hsplit : strings.length + (n - strings.length) = n := Nat.add_sub_of_le hn
    rw [← hsplit, stringLoop_add, bind_assoc, Decoder.bind_of_ok hloop, start_after]
    rw [← htail] at hfault
    generalize n - strings.length = left at hfault
    cases left with
    | zero =>
      cases hfault with
      | final hfinal =>
        show ∃ u w', (ensure (decide (final = 0)) _ >>= _) v' = _
        rw [decide_eq_false hfinal]
        exact ⟨v', v', rfl⟩
    | succ left =>
      obtain ⟨u, w', hturn⟩ := stringTurn_fault
        (p := ⟨"" :: strings.map latin1, last, final, decodedLength strings⟩) hfault
      exact ⟨u, w', Decoder.bind_of_error (Decoder.bind_of_error hturn)⟩
  · rw [if_neg hroom, if_neg hroom]
    exact ⟨v, v, rfl⟩

/-- A table is read alike with every addition that is exact below 32 bits. -/
theorem stringsWith_eq {add : Nat → Nat → Nat × Bool}
    (hadd : ∀ a b, a + b < 2 ^ 32 → add a b = exactAdd a b) :
    stringsWith add = stringsWith exactAdd := by
  funext w
  unfold stringsWith
  refine Decoder.bind_congr_of_ok fun _ _ _ => Decoder.bind_congr_of_ok fun _ _ _ =>
    Decoder.bind_congr_of_ok fun n _ _ => Decoder.bind_congr_of_ok fun size _ hsize => ?_
  rw [stringLoop_addition hadd (count_le hsize) n (Nat.zero_le _) (Nat.zero_le _)]

/-- The addition of the target is exact there. -/
theorem overflowingAdd_eq {a b : Nat} (h : a + b < 2 ^ 32) : overflowingAdd a b = exactAdd a b := by
  have hle : a + b ≤ Types.usizeMax := h.le.trans (by decide)
  rw [overflowingAdd, exactAdd, Nat.mod_eq_of_lt (Nat.lt_succ_of_le hle),
    decide_eq_false (Nat.not_lt.2 hle)]

/-- **The string table.** For every list of strings of text bytes and every way to write it, in
groups that are minimal or not, with an advertised size that its bytes fit, the reader returns the
empty string and these strings, as Latin-1, and stops just past the final marker. It accepts no
other section, and names what is wrong with a table that starts well. Its sums stay below 32 bits:
it reads the same whatever the addition does from there on. -/
theorem strings_exact :
    (∀ w n size strings bytes more last, w.bytes.length ≤ w.len →
      Header w n size (bytes ++ (ascii "EOS\x00" ++ more)) → strings.length = n →
      decodedLength strings ≤ size → Written [] 0 strings bytes last 0 →
        Yields Wire.strings w ("" :: strings.map latin1) (16 + bytes.length + 4)) ∧
    (∀ w result w', Wire.strings w = (.ok result, w') →
      ∃ n size strings bytes more last, Header w n size (bytes ++ (ascii "EOS\x00" ++ more)) ∧
        strings.length = n ∧ decodedLength strings ≤ size ∧ Written [] 0 strings bytes last 0 ∧
          result = "" :: strings.map latin1 ∧ Same w' (w.skip (16 + bytes.length + 4))) ∧
    (∀ w n size strings bytes tail last final message, Header w n size (bytes ++ tail) →
      strings.length ≤ n → decodedLength strings ≤ size → Written [] 0 strings bytes last final →
      Fault size last final (decodedLength strings) (n - strings.length) tail message →
        ∃ v w', Wire.strings w = (.error (malformed
          (if n ≤ (w.skip 16).left then message else "string count exceeds remaining input") v),
            w')) ∧
    ∀ add, (∀ a b, a + b < 2 ^ 32 → add a b = exactAdd a b) → stringsWith add = Wire.strings := by
  have hstrings : Wire.strings = stringsWith exactAdd :=
    stringsWith_eq fun _ _ => overflowingAdd_eq
  rw [hstrings]
  exact ⟨fun _ _ _ _ _ _ _ hlen h hn hfits hwritten => stringsWith_yields hlen h hn hfits hwritten,
    fun _ _ _ h => stringsWith_written h,
    fun _ _ _ _ _ _ _ _ _ h hn hfits hwritten hfault =>
    stringsWith_fault h hn hfits hwritten hfault,
    fun _ hadd => stringsWith_eq hadd⟩

/-- The section of three strings, the second of which shares two bytes with the first one. -/
def sharedTable : Wire where
  bytes := ascii "STR\x00\x00\x00\x00\x00\x03\x00\x00\x00\x09\x00\x00\x00" ++
    ascii "abc\x02d\x00\xe9xy\x00EOS\x00"
  fault := none
  offset := 0
  len := 30
  bigEndian := false
  version := 1
  buffered := 0
  fills := 0
  sizes := fun _ => 1

/-- Three strings, two of which share a prefix, and one with a letter of two bytes. -/
theorem strings_exact_three : Yields Wire.strings sharedTable ["", "abc", "abd", "éxy"] 30 := by
  have hgroups : ∀ b : UInt8, b = 2 ∨ b = 0 → Groups [b] := by
    rintro b (rfl | rfl) <;>
      exact ⟨by decide +kernel, by unfold Terminated; decide +kernel, by decide +kernel⟩
  refine strings_exact.1 _ 3 9 [[97, 98, 99], [97, 98, 100], [233, 120, 121]]
    (ascii "abc\x02d\x00\xe9xy\x00") [] [233, 120, 121] (by decide)
    ⟨⟨[3, 0, 0, 0], [9, 0, 0, 0], by decide, rfl, rfl, by decide, by decide⟩, by decide, by decide⟩
    rfl (by decide) ?_
  have hzero := hgroups 0 (.inr rfl)
  have hthird : Written [97, 98, 100] 0 [[233, 120, 121]] [233, 120, 121, 0] [233, 120, 121] 0 :=
    .cons (by decide) (by decide) (by decide) (by unfold IsText; decide +kernel) hzero (.nil _ _)
  have hsecond : Written [97, 98, 99] 2 [[97, 98, 100], [233, 120, 121]]
      ([100, 0] ++ [233, 120, 121, 0]) [233, 120, 121] 0 :=
    .cons (by decide) (by decide) (by decide) (by unfold IsText; decide +kernel) hzero hthird
  exact .cons (by decide) (by decide) (by decide) (by unfold IsText; decide +kernel)
    (hgroups 2 (.inl rfl)) hsecond

end

end Ondas.Ghw
