import Ondas.Library.Decoder
import Ondas.Value

/-!
# The GHW wire

`Wire` is the input of the GHW reader: the bytes, the offset of the next one, and the buffer between
them and the file. A buffer is filled by reads that return as many bytes as they like, which `sizes`
gives for every fill, so a statement about every wire is one about every partition of the input into
the windows that `fill_buf` returns. `Wire.plain` forgets the buffer. Every checked read gives the
same result, error offset and position on wires with the same plain view (`Decoder.Respects Same`),
and `byte_eq` and `fixed_eq` say what the two primitive ones do to it.
-/

namespace Ondas.Ghw

open Library

/-! ## The input and its buffer -/

/-- The buffered input. `fault` is the message of the I/O error met once `bytes` is used up, and
fill number `fills` of the buffer reads `sizes fills` bytes, at least one and at most what is
left. -/
structure Wire where
  bytes : List UInt8
  fault : Option String
  offset : Nat
  len : Nat
  bigEndian : Bool
  version : UInt8
  buffered : Nat
  fills : Nat
  sizes : Nat → Nat

/-- A checked read. -/
abbrev Read (α : Type) := Decoder Wire Error α

namespace Wire

/-- The bytes from the current position on. -/
def rest (w : Wire) : List UInt8 := w.bytes.drop w.offset

/-- The wire with an empty buffer that is filled byte by byte. -/
def plain (w : Wire) : Wire := { w with buffered := 0, fills := 0, sizes := fun _ => 1 }

/-- The input `n` bytes further on. -/
def skip (n : Nat) (w : Wire) : Wire := { w with offset := w.offset + n }

/-- `Wire::malformed`. -/
def malformed (message : String) (w : Wire) : Error :=
  .malformed .ghw "ghw-native" s!"byte {w.offset}: {message}"

/-- `Wire::unsupported`. -/
def unsupported (message : String) (w : Wire) : Error :=
  .unsupportedFeature .ghw "ghw-native" "decode" s!"byte {w.offset}: unsupported GHW {message}"

/-- `BufReader::fill_buf`: the buffered bytes, after a read when there are none. They are empty at
the end of the input only. -/
def fillBuf : Read (List UInt8) := fun w =>
  match w.rest.take w.buffered with
  | [] =>
    match w.rest, w.fault with
    | [], some message => (.error (.io message), w)
    | rest, _ =>
      let buffered := max 1 (w.sizes w.fills)
      (.ok (rest.take buffered), { w with buffered := buffered, fills := w.fills + 1 })
  | window => (.ok window, w)

/-- `BufReader::consume`, with the offset moved along. -/
def consume (n : Nat) : Read Unit := fun w =>
  (.ok (), { w with offset := w.offset + n, buffered := w.buffered - n })

/-- `Wire::at_eof`. -/
def atEof : Read Bool := do
  let window ← fillBuf
  pure window.isEmpty

/-- `Wire::byte`. -/
def byte : Read UInt8 := do
  let window ← fillBuf
  match window with
  | [] => Decoder.fail (malformed "truncated field")
  | byte :: _ => do
    consume 1
    pure byte

/-- The loop of `Wire::fixed`, with the bytes still missing and those read so far. Each turn reads
at least one of the missing bytes. -/
def fixedLoop : Nat → Nat → List UInt8 → Read (List UInt8)
  | 0, _, result => pure result
  | fuel + 1, missing, result =>
    if missing = 0 then pure result
    else do
      let window ← fillBuf
      if window.isEmpty then Decoder.fail (malformed "truncated field")
      else do
        let n := min window.length missing
        consume n
        fixedLoop fuel (missing - n) (result ++ window.take n)

/-- `Wire::fixed`. -/
def fixed (n : Nat) : Read (List UInt8) := fixedLoop n n []

end Wire

/-! ## Numbers -/

/-- The number of some bytes, the least significant one first. -/
def fromLeBytes : List UInt8 → Nat
  | [] => 0
  | b :: bs => b.toNat + 256 * fromLeBytes bs

/-- The number of some bytes, the most significant one first. -/
def fromBeBytes (bytes : List UInt8) : Nat := fromLeBytes bytes.reverse

/-- The number of some bytes in the byte order of a file. -/
def fromBytes (bigEndian : Bool) (bytes : List UInt8) : Nat :=
  if bigEndian then fromBeBytes bytes else fromLeBytes bytes

/-- What one group of a LEB128 field leads to. -/
inductive LebTurn (V R : Type) where
  | exceeds
  | more (value : V)
  | done (result : R)

/-- The body of the loops of `Wire::uleb_continued` and `window_uleb`: group `group` of an unsigned
field of 32 bits, after the groups that make up `value`. -/
def ulebTurn (group value : Nat) (byte : UInt8) : LebTurn Nat Nat :=
  if group = 4 ∧ byte &&& 0xf0 ≠ 0 then .exceeds
  else
    let value := value ||| ((byte &&& 0x7f).toNat <<< (7 * group))
    if byte &&& 0x80 = 0 then .done value else .more value

/-- The body of the loops of `Wire::sleb` and `decode_sleb`: group `group` of a signed field of
`bits` bits, after the groups that make up `value`. -/
def slebTurn (bits group : Nat) (value : UInt64) (byte : UInt8) : LebTurn UInt64 Int :=
  let shift := group * 7
  let remaining := bits - shift
  let sign := (1 : UInt8) <<< UInt8.ofNat (remaining - 1)
  let highMask := (0x7f : UInt8) &&& ~~~(((1 : UInt8) <<< UInt8.ofNat remaining) - 1)
  let expected := if byte &&& sign = 0 then 0 else highMask
  if remaining < 7 ∧ (byte &&& 0x80 ≠ 0 ∨ byte &&& highMask ≠ expected) then .exceeds
  else
    let value := value ||| ((byte &&& 0x7f).toUInt64 <<< UInt64.ofNat shift)
    if byte &&& 0x80 = 0 then
      let consumed := shift + 7
      let value :=
        if byte &&& 0x40 ≠ 0 ∧ consumed < 64 then
          value ||| ((0xffffffffffffffff : UInt64) <<< UInt64.ofNat consumed)
        else value
      let signed := value.toInt64.toInt
      if bits = 32 ∧ (signed < -2 ^ 31 ∨ 2 ^ 31 ≤ signed) then .exceeds else .done signed
    else .more value

/-- `u32::div_ceil`, for the number of groups of a field of some bits. -/
def groups (bits : Nat) : Nat := (bits + 6) / 7

/-- The loop over the groups of a field at the start of some bytes, with its length: `window_uleb`
and `decode_sleb`. -/
def sliceLeb {V R : Type} (turn : Nat → V → UInt8 → LebTurn V R) :
    Nat → Nat → V → List UInt8 → Option (R × Nat)
  | 0, _, _, _ => none
  | _ + 1, _, _, [] => none
  | fuel + 1, group, value, byte :: bytes =>
    match turn group value byte with
    | .exceeds => none
    | .done result => some (result, group + 1)
    | .more value => sliceLeb turn fuel (group + 1) value bytes

/-- `decode_sleb`. -/
def decodeSleb (bits : Nat) (bytes : List UInt8) : Option (Int × Nat) :=
  sliceLeb (slebTurn bits) (groups bits) 0 0 bytes

namespace Wire

/-- `Wire::u32`. -/
def u32 : Read Nat := do
  let bytes ← fixed 4
  let bigEndian ← Decoder.look Wire.bigEndian
  pure (fromBytes bigEndian bytes)

/-- `Wire::i64`. -/
def i64 : Read Int := do
  let bytes ← fixed 8
  let bigEndian ← Decoder.look Wire.bigEndian
  pure (UInt64.ofNat (fromBytes bigEndian bytes)).toInt64.toInt

/-- `Wire::real_bits`. -/
def realBits : Read UInt64 := do
  let bytes ← fixed 8
  let bigEndian ← Decoder.look Wire.bigEndian
  pure (UInt64.ofNat (fromBytes bigEndian bytes))

/-- The loop over the groups of a field on the wire: `Wire::uleb_continued` and `Wire::sleb`. -/
def lebLoop {V R : Type} (turn : Nat → V → UInt8 → LebTurn V R) (exceeds unterminated : String) :
    Nat → Nat → V → Read R
  | 0, _, _ => Decoder.fail (malformed unterminated)
  | fuel + 1, group, value => do
    let byte ← byte
    match turn group value byte with
    | .exceeds => Decoder.fail (malformed exceeds)
    | .done result => pure result
    | .more value => lebLoop turn exceeds unterminated fuel (group + 1) value

/-- `Wire::uleb`: the first group is a case of its own, the others are `Wire::uleb_continued`. -/
def uleb : Read Nat := do
  let first ← byte
  if first &&& 0x80 = 0 then pure first.toNat
  else lebLoop ulebTurn "ULEB128 exceeds 32 bits" "unterminated ULEB128" 4 1 (first &&& 0x7f).toNat

/-- `Wire::sleb`. -/
def sleb (bits : Nat) : Read Int :=
  lebLoop (slebTurn bits) s!"SLEB128 exceeds {bits} bits" "unterminated SLEB128" (groups bits) 0 0

/-! ## Fields -/

/-- A guard of the reader: an error unless the condition holds. -/
def ensure (condition : Bool) (error : Wire → Error) : Read Unit :=
  if condition then pure () else Decoder.fail error

/-- Past a guard its condition holds. -/
theorem ensure_ensures (condition : Bool) (error : Wire → Error) :
    Decoder.Ensures (fun _ => condition = true) (ensure condition error) := by
  cases condition with
  | false => exact .fail _
  | true => exact .pure rfl

/-- `Wire::zeros`. -/
def zeros : Read Unit := do
  let bytes ← fixed 4
  ensure (bytes == [0, 0, 0, 0]) (malformed "nonzero reserved section field")

/-- `Wire::marker`. The markers are ASCII with a final zero byte. -/
def marker (expected : String) : Read Unit := do
  let bytes ← fixed 4
  ensure (bytes == ascii expected) (malformed s!"expected {expected} section marker")

/-- `i32::MAX`, which bounds every count. -/
def i32Max : Nat := 2 ^ 31 - 1

/-- `Wire::count`. -/
def count (context : String) : Read Nat := do
  let count ← u32
  ensure (decide (count ≤ i32Max)) (malformed s!"negative {context} count")
  pure count

/-- The bytes between the position and the measured length of the input. -/
def left (w : Wire) : Nat := w.len - w.offset

/-! ## Reads and the plain view -/

/-- Wires that differ in their buffers only. -/
def Same (w w' : Wire) : Prop := w.plain = w'.plain

/-- The error of a read past the end of the input. -/
def eof (w : Wire) : Error :=
  match w.fault with
  | some message => .io message
  | none => malformed "truncated field" w

@[simp] theorem plain_rest (w : Wire) : w.plain.rest = w.rest := rfl

@[simp] theorem skip_rest (n : Nat) (w : Wire) : (w.skip n).rest = w.rest.drop n := by
  rw [rest, rest, List.drop_drop]; rfl

@[simp] theorem skip_zero (w : Wire) : w.skip 0 = w := rfl

@[simp] theorem skip_skip (m n : Nat) (w : Wire) : (w.skip m).skip n = w.skip (m + n) := by
  simp only [skip, Nat.add_assoc]

theorem Same.rest {w w' : Wire} (h : Same w w') : w.rest = w'.rest := by
  have := congrArg Wire.rest h
  exact this

theorem Same.skip {w w' : Wire} (h : Same w w') (n : Nat) : Same (w.skip n) (w'.skip n) := by
  have := congrArg (Wire.skip n) h
  exact this

/-- The text of an error depends on the position, which inputs with the same bytes share. -/
theorem Same.malformed {w w' : Wire} (message : String) (h : Same w w') :
    malformed message w = malformed message w' := by
  have := congrArg (Wire.malformed message) h
  exact this

/-- So does that of an unsupported input. -/
theorem Same.unsupported {w w' : Wire} (message : String) (h : Same w w') :
    unsupported message w = unsupported message w' := by
  have := congrArg (Wire.unsupported message) h
  exact this

theorem Same.eof {w w' : Wire} (h : Same w w') : w.eof = w'.eof := by
  have := congrArg Wire.eof h
  exact this

theorem Same.symm {w w' : Wire} (h : Same w w') : Same w' w := Eq.symm h

theorem Same.trans {w w' w'' : Wire} (h : Same w w') (h' : Same w' w'') : Same w w'' :=
    Eq.trans h h'

/-- The end of the input has no window. -/
theorem fillBuf_end {w : Wire} (h : w.rest = []) :
    ∃ w', fillBuf w =
      (match w.fault with | some message => .error (.io message) | none => .ok [], w') ∧
      Same w' w := by
  obtain ⟨bytes, fault, offset, len, bigEndian, version, buffered, fills, sizes⟩ := w
  unfold fillBuf
  rw [h, List.take_nil]
  cases fault with
  | none =>
    dsimp only
    rw [List.take_nil]
    exact ⟨_, rfl, rfl⟩
  | some message => exact ⟨_, rfl, rfl⟩

/-- A window is a prefix of the bytes that are left. -/
theorem fillBuf_window {w : Wire} (h : w.rest ≠ []) :
    ∃ window more w', fillBuf w = (.ok window, w') ∧ Same w' w ∧ window ≠ [] ∧
      w.rest = window ++ more := by
  unfold fillBuf
  cases htake : w.rest.take w.buffered with
  | nil =>
    dsimp only
    obtain ⟨b, bs, hrest⟩ := List.exists_cons_of_ne_nil h
    have hsize : max 1 (w.sizes w.fills) ≠ 0 := by omega
    rw [hrest]
    refine ⟨_, (b :: bs).drop (max 1 (w.sizes w.fills)), _, rfl, rfl, ?_,
      (List.take_append_drop ..).symm⟩
    simp [List.take_eq_nil_iff, hsize]
  | cons b window =>
    refine ⟨b :: window, w.rest.drop w.buffered, w, rfl, rfl, List.cons_ne_nil _ _, ?_⟩
    rw [← htake, List.take_append_drop]

/-- Consuming a part of the input moves the position. -/
theorem consume_eq (n : Nat) (w : Wire) :
    ∃ w', consume n w = (.ok (), w') ∧ Same w' (w.skip n) := ⟨_, rfl, rfl⟩

/-- A byte read past the end. -/
theorem byte_end {w : Wire} (h : w.rest = []) :
    ∃ w', byte w = (.error w.eof, w') ∧ Same w' w := by
  obtain ⟨w', hfill, hsame⟩ := fillBuf_end h
  refine ⟨w', ?_, hsame⟩
  unfold byte eof
  cases hfault : w.fault with
  | none =>
    rw [hfault] at hfill
    rw [Decoder.bind_of_ok hfill]
    exact congrArg (fun e => (Except.error e, w')) (hsame.malformed _)
  | some message =>
    rw [hfault] at hfill
    rw [Decoder.bind_of_error hfill]

/-- A byte read from the input. -/
theorem byte_eq {w : Wire} {b : UInt8} {bs : List UInt8} (h : w.rest = b :: bs) :
    ∃ w', byte w = (.ok b, w') ∧ Same w' (w.skip 1) := by
  obtain ⟨window, more, w₁, hfill, hsame, hne, hrest⟩ := fillBuf_window (w := w) (by simp [h])
  obtain ⟨c, cs, rfl⟩ := List.exists_cons_of_ne_nil hne
  rw [h] at hrest
  injection hrest with hb _
  subst hb
  unfold byte
  rw [Decoder.bind_of_ok hfill]
  exact ⟨_, rfl, hsame.skip 1⟩

/-- Some bytes read from the input, or an input that ends before. -/
theorem fixedLoop_eq {fuel missing : Nat} (hfuel : missing ≤ fuel) (result : List UInt8)
    (w : Wire) :
    (missing ≤ w.rest.length ∧ ∃ w', fixedLoop fuel missing result w =
        (.ok (result ++ w.rest.take missing), w') ∧ Same w' (w.skip missing)) ∨
      (w.rest.length < missing ∧ ∃ w', fixedLoop fuel missing result w =
        (.error (w.skip w.rest.length).eof, w') ∧ Same w' (w.skip w.rest.length)) := by
  induction fuel generalizing missing result w with
  | zero =>
    obtain rfl : missing = 0 := by omega
    exact .inl ⟨Nat.zero_le _, w, by simp [fixedLoop], rfl⟩
  | succ fuel ih =>
    unfold fixedLoop
    split
    · next hmissing =>
      subst hmissing
      exact .inl ⟨Nat.zero_le _, w, by simp, rfl⟩
    next hmissing =>
    cases hrest : w.rest with
    | nil =>
      obtain ⟨w', hfill, hsame⟩ := fillBuf_end hrest
      refine .inr ⟨by simpa using Nat.pos_of_ne_zero hmissing, w', ?_, hsame⟩
      rw [List.length_nil, skip_zero, eof]
      cases hfault : w.fault with
      | none =>
        rw [hfault] at hfill
        rw [Decoder.bind_of_ok hfill]
        exact congrArg (fun e => (Except.error e, w')) (hsame.malformed _)
      | some message =>
        rw [hfault] at hfill
        rw [Decoder.bind_of_error hfill]
    | cons b bs =>
      obtain ⟨window, more, w₁, hfill, hsame, hne, happend⟩ :=
        fillBuf_window (w := w) (by simp [hrest])
      have hlength : 0 < window.length := List.length_pos_iff.2 hne
      obtain ⟨w₂, hconsume, hmoved⟩ := consume_eq (min window.length missing) w₁
      have hsame₂ := hmoved.trans (hsame.skip _)
      rw [Decoder.bind_of_ok hfill, if_neg (by simpa using hne), Decoder.bind_of_ok hconsume]
      have hleft : w₂.rest = w.rest.drop (min window.length missing) := by
        rw [hsame₂.rest, skip_rest]
      have htake : window.take (min window.length missing) =
          w.rest.take (min window.length missing) := by
        rw [happend, List.take_append_of_le_length (Nat.min_le_left ..)]
      have hbound : window.length ≤ w.rest.length := by rw [happend]; simp
      have hfuel' : missing - min window.length missing ≤ fuel := by omega
      rcases ih hfuel'
          (result ++ window.take (min window.length missing)) w₂ with
        ⟨hle, w', hloop, hend⟩ | ⟨hlt, w', hloop, hend⟩
      · rw [hleft, List.length_drop] at hle
        rw [← hrest]
        refine .inl ⟨by omega, w', ?_, ?_⟩
        · rw [hloop, hleft, htake, List.append_assoc, ← List.take_add]
          congr 4
          omega
        · have hskip := hsame₂.skip (missing - min window.length missing)
          rw [skip_skip, show min window.length missing + (missing - min window.length missing) =
            missing by omega] at hskip
          exact hend.trans hskip
      · rw [hleft, List.length_drop] at hlt hloop hend
        rw [← hrest]
        have hskip := hsame₂.skip (w.rest.length - min window.length missing)
        rw [skip_skip, show min window.length missing +
          (w.rest.length - min window.length missing) = w.rest.length by omega] at hskip
        exact .inr ⟨by omega, w', by rw [hloop, hskip.eof], hend.trans hskip⟩

/-- A field of some bytes read from the input, or an input that ends before. -/
theorem fixed_eq (n : Nat) (w : Wire) :
    (n ≤ w.rest.length ∧ ∃ w', fixed n w = (.ok (w.rest.take n), w') ∧ Same w' (w.skip n)) ∨
      (w.rest.length < n ∧ ∃ w', fixed n w = (.error (w.skip w.rest.length).eof, w') ∧
        Same w' (w.skip w.rest.length)) := by
  have h := fixedLoop_eq (Nat.le_refl n) [] w
  rw [List.nil_append] at h
  exact h

/-! ## Reads do not see the buffer -/

/-- A read whose result, error and position do not depend on the buffer. -/
abbrev Unbuffered {α : Type} (x : Read α) : Prop := x.Respects Same

theorem unbuffered_malformed {α : Type} (message : String) :
    Unbuffered (Decoder.fail (malformed message) : Read α) :=
  .fail fun _ _ h => h.malformed message

theorem unbuffered_unsupported {α : Type} (message : String) :
    Unbuffered (Decoder.fail (unsupported message) : Read α) :=
  .fail fun _ _ h => h.unsupported message

/-- A byte does not depend on what is buffered. -/
theorem unbuffered_byte : Unbuffered byte := by
  intro w v h
  cases hrest : w.rest with
  | nil =>
    obtain ⟨w', hw, hsame⟩ := byte_end hrest
    obtain ⟨v', hv, hsame'⟩ := byte_end (h.rest ▸ hrest)
    rw [hw, hv]
    exact ⟨congrArg Except.error h.eof, (hsame.trans h).trans hsame'.symm⟩
  | cons b bs =>
    obtain ⟨w', hw, hsame⟩ := byte_eq hrest
    obtain ⟨v', hv, hsame'⟩ := byte_eq (h.rest ▸ hrest)
    rw [hw, hv]
    exact ⟨rfl, (hsame.trans (h.skip 1)).trans hsame'.symm⟩

/-- Nor do some bytes, which are read from the buffer or past it. -/
theorem unbuffered_fixed (n : Nat) : Unbuffered (fixed n) := by
  intro w v h
  have hrest := h.rest
  rcases fixed_eq n w with ⟨hle, w', hw, hsame⟩ | ⟨hlt, w', hw, hsame⟩ <;>
    rcases fixed_eq n v with ⟨hle', v', hv, hsame'⟩ | ⟨hlt', v', hv, hsame'⟩ <;>
    rw [hw, hv] <;> rw [hrest] at *
  · exact ⟨rfl, (hsame.trans (h.skip n)).trans hsame'.symm⟩
  · omega
  · omega
  · have hend := h.skip v.rest.length
    exact ⟨congrArg Except.error hend.eof, (hsame.trans hend).trans hsame'.symm⟩

/-- Nor does the end of the input. -/
theorem unbuffered_atEof : Unbuffered atEof := by
  intro w v h
  cases hrest : w.rest with
  | nil =>
    obtain ⟨w', hw, hsame⟩ := fillBuf_end hrest
    obtain ⟨v', hv, hsame'⟩ := fillBuf_end (h.rest ▸ hrest)
    have hfault : w.fault = v.fault := by
      have := congrArg Wire.fault h
      exact this
    rw [hfault] at hw
    unfold atEof
    cases hmessage : v.fault with
    | none =>
      rw [hmessage] at hw hv
      rw [Decoder.bind_of_ok hw, Decoder.bind_of_ok hv]
      exact ⟨rfl, (hsame.trans h).trans hsame'.symm⟩
    | some message =>
      rw [hmessage] at hw hv
      rw [Decoder.bind_of_error hw, Decoder.bind_of_error hv]
      exact ⟨rfl, (hsame.trans h).trans hsame'.symm⟩
  | cons b bs =>
    obtain ⟨window, -, w', hw, hsame, hne, -⟩ := fillBuf_window (w := w) (by simp [hrest])
    obtain ⟨window', -, v', hv, hsame', hne', -⟩ :=
      fillBuf_window (w := v) (by simp [← h.rest, hrest])
    unfold atEof
    rw [Decoder.bind_of_ok hw, Decoder.bind_of_ok hv]
    refine ⟨?_, (hsame.trans h).trans hsame'.symm⟩
    rw [Decoder.pure_apply, Decoder.pure_apply, List.isEmpty_eq_false_iff.2 hne,
      List.isEmpty_eq_false_iff.2 hne']

/-- Nor does the byte order. -/
theorem unbuffered_bigEndian : Unbuffered (Decoder.look Wire.bigEndian) :=
  .look fun w v h => by
    have := congrArg Wire.bigEndian h
    exact this

theorem unbuffered_i64 : Unbuffered i64 :=
  (unbuffered_fixed 8).bind fun _ => unbuffered_bigEndian.bind fun _ => .pure _

theorem unbuffered_u32 : Unbuffered u32 :=
  (unbuffered_fixed 4).bind fun _ => unbuffered_bigEndian.bind fun _ => .pure _

theorem unbuffered_realBits : Unbuffered realBits :=
  (unbuffered_fixed 8).bind fun _ => unbuffered_bigEndian.bind fun _ => .pure _

/-- A number does not depend on what is buffered: its bytes are read one by one. -/
theorem unbuffered_lebLoop {V R : Type} (turn : Nat → V → UInt8 → LebTurn V R)
    (exceeds unterminated : String) (fuel group : Nat) (value : V) :
    Unbuffered (lebLoop turn exceeds unterminated fuel group value) := by
  induction fuel generalizing group value with
  | zero => exact unbuffered_malformed _
  | succ fuel ih =>
    refine unbuffered_byte.bind fun b => ?_
    cases turn group value b with
    | exceeds => exact unbuffered_malformed _
    | more value => exact ih _ _
    | done result => exact .pure _

theorem unbuffered_uleb : Unbuffered uleb :=
  unbuffered_byte.bind fun _ => .ite (.pure _) (unbuffered_lebLoop _ _ _ _ _ _)

theorem unbuffered_sleb (bits : Nat) : Unbuffered (sleb bits) := unbuffered_lebLoop _ _ _ _ _ _

theorem unbuffered_ensure (condition : Bool) {error : Wire → Error}
    (herror : ∀ w v, Same w v → error w = error v) : Unbuffered (ensure condition error) :=
  .ite (.pure _) (.fail herror)

theorem unbuffered_zeros : Unbuffered zeros :=
  (unbuffered_fixed 4).bind fun _ => unbuffered_ensure _ fun _ _ h => h.malformed _

theorem unbuffered_marker (expected : String) : Unbuffered (marker expected) :=
  (unbuffered_fixed 4).bind fun _ => unbuffered_ensure _ fun _ _ h => h.malformed _

theorem unbuffered_count (context : String) : Unbuffered (count context) :=
  unbuffered_u32.bind fun _ =>
  (unbuffered_ensure _ fun _ _ h => h.malformed _).bind fun _ => .pure _

/-- What is left of the input does not depend on what is buffered of it. -/
theorem unbuffered_left : Unbuffered (Decoder.look left) :=
  .look fun w v h => by
    have := congrArg Wire.left h
    exact this

/-! ## Reads move forward -/

/-- A read moves forward inside the input, by at least `k` bytes when it succeeds. -/
def Moves {α : Type} (k : Nat) (x : Read α) : Prop :=
  ∀ w, ∃ n ≤ w.rest.length, Same (x w).2 (w.skip n) ∧ ∀ a, (x w).1 = .ok a → k ≤ n

section
variable {α β : Type} {k l : Nat} {x y : Read α} {f : α → Read β}

theorem Moves.pure (a : α) : Moves 0 (Pure.pure a : Read α) :=
  fun _ => ⟨0, Nat.zero_le _, rfl, fun _ _ => Nat.zero_le _⟩

theorem Moves.fail (error : Wire → Error) : Moves k (Decoder.fail error : Read α) :=
  fun _ => ⟨0, Nat.zero_le _, rfl, nofun⟩

theorem Moves.look (g : Wire → α) : Moves 0 (Decoder.look g : Read α) :=
  fun _ => ⟨0, Nat.zero_le _, rfl, fun _ _ => Nat.zero_le _⟩

/-- A read that takes some bytes takes fewer too. -/
theorem Moves.mono (h : Moves k x) (hle : l ≤ k) : Moves l x := by
  intro w
  obtain ⟨n, hn, hsame, hok⟩ := h w
  exact ⟨n, hn, hsame, fun a ha => hle.trans (hok a ha)⟩

/-- The bytes that two reads take add up. -/
theorem Moves.bind (hx : Moves k x) (hf : ∀ a, Moves l (f a)) : Moves (k + l) (x >>= f) := by
  intro w
  obtain ⟨n, hn, hsame, hok⟩ := hx w
  rcases hrun : x w with ⟨e | a, w'⟩ <;> rw [hrun] at hsame hok
  · rw [Decoder.bind_of_error hrun]
    exact ⟨n, hn, hsame, nofun⟩
  · rw [Decoder.bind_of_ok hrun]
    obtain ⟨m, hm, hsame', hok'⟩ := hf a w'
    have hrest : w'.rest = w.rest.drop n := by rw [hsame.rest, skip_rest]
    rw [hrest, List.length_drop] at hm
    have hskip := hsame.skip m
    rw [skip_skip] at hskip
    refine ⟨n + m, by omega, hsame'.trans hskip, fun b hb => ?_⟩
    have := hok a rfl
    have := hok' b hb
    omega

/-- What follows a read may stay where it ended. -/
theorem Moves.first (hx : Moves k x) (hf : ∀ a, Moves 0 (f a)) : Moves k (x >>= f) := hx.bind hf

/-- What precedes a read may stay where it began. -/
theorem Moves.second (hx : Moves 0 x) (hf : ∀ a, Moves k (f a)) : Moves k (x >>= f) :=
  (hx.bind hf).mono (Nat.le_add_left _ _)

theorem Moves.zero (h : Moves k x) : Moves 0 x := h.mono (Nat.zero_le _)

/-- A choice takes what each of its branches takes. -/
theorem Moves.ite {p : Prop} [Decidable p] (hx : Moves k x) (hy : Moves k y) :
    Moves k (if p then x else y) := by
  split
  · exact hx
  · exact hy

end

/-- A byte takes one byte. -/
theorem moves_byte : Moves 1 byte := by
  intro w
  cases hrest : w.rest with
  | nil =>
    obtain ⟨w', hw, hsame⟩ := byte_end hrest
    rw [hw]
    exact ⟨0, Nat.zero_le _, hsame, nofun⟩
  | cons b bs =>
    obtain ⟨w', hw, hsame⟩ := byte_eq hrest
    rw [hw]
    exact ⟨1, by simp, hsame, fun _ _ => Nat.le_refl 1⟩

/-- Some bytes take as many. -/
theorem moves_fixed (n : Nat) : Moves n (fixed n) := by
  intro w
  rcases fixed_eq n w with ⟨hle, w', hw, hsame⟩ | ⟨hlt, w', hw, hsame⟩ <;> rw [hw]
  · exact ⟨n, hle, hsame, fun _ _ => Nat.le_refl n⟩
  · exact ⟨_, Nat.le_refl _, hsame, nofun⟩

/-- A number takes at least a byte. -/
theorem moves_lebLoop {V R : Type} (turn : Nat → V → UInt8 → LebTurn V R)
    (exceeds unterminated : String) (fuel group : Nat) (value : V) :
    Moves 1 (lebLoop turn exceeds unterminated fuel group value) := by
  induction fuel generalizing group value with
  | zero => exact .fail _
  | succ fuel ih =>
    refine moves_byte.first fun b => ?_
    cases turn group value b with
    | exceeds => exact .fail _
    | more value => exact (ih _ _).zero
    | done result => exact .pure _

theorem moves_uleb : Moves 1 uleb :=
  moves_byte.first fun _ => .ite (.pure _) (moves_lebLoop _ _ _ _ _ _).zero

theorem moves_sleb (bits : Nat) : Moves 1 (sleb bits) := moves_lebLoop _ _ _ _ _ _

theorem moves_ensure (condition : Bool) (error : Wire → Error) :
    Moves 0 (ensure condition error) :=
  .ite (.pure _) (.fail _)

theorem moves_i64 : Moves 8 i64 :=
  (moves_fixed 8).first fun _ => (Moves.look _).first fun _ => .pure _

theorem moves_u32 : Moves 4 u32 :=
  (moves_fixed 4).first fun _ => (Moves.look _).first fun _ => .pure _

theorem moves_realBits : Moves 8 realBits :=
  (moves_fixed 8).first fun _ => (Moves.look _).first fun _ => .pure _

theorem moves_zeros : Moves 4 zeros := (moves_fixed 4).first fun _ => moves_ensure _ _

theorem moves_marker (expected : String) : Moves 4 (marker expected) :=
  (moves_fixed 4).first fun _ => moves_ensure _ _

theorem moves_count (context : String) : Moves 4 (count context) :=
  moves_u32.first fun _ => (moves_ensure _ _).first fun _ => .pure _

/-- The look for the end takes nothing. -/
theorem moves_atEof : Moves 0 atEof := by
  intro w
  cases hrest : w.rest with
  | nil =>
    obtain ⟨w', hw, hsame⟩ := fillBuf_end hrest
    unfold atEof
    cases hfault : w.fault with
    | none =>
      rw [hfault] at hw
      rw [Decoder.bind_of_ok hw]
      exact ⟨0, Nat.zero_le _, hsame, fun _ _ => Nat.zero_le _⟩
    | some message =>
      rw [hfault] at hw
      rw [Decoder.bind_of_error hw]
      exact ⟨0, Nat.zero_le _, hsame, fun _ _ => Nat.zero_le _⟩
  | cons b bs =>
    obtain ⟨window, -, w', hw, hsame, -, -⟩ := fillBuf_window (w := w) (by simp [hrest])
    unfold atEof
    rw [Decoder.bind_of_ok hw]
    exact ⟨0, Nat.zero_le _, hsame, fun _ _ => Nat.zero_le _⟩

/-- A read that is repeated does not go back. -/
theorem moves_times {α : Type} {x : Read α} (hx : Moves 0 x) (n : Nat) :
    Moves 0 (Decoder.times x n) := by
  induction n with
  | zero => exact .pure _
  | succ n ih => exact hx.first fun _ => ih.first fun _ => .pure _

end Wire

end Ondas.Ghw
