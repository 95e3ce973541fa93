import Mathlib.Algebra.Order.Ring.Int
import Mathlib.Data.List.Basic
import Mathlib.Data.List.DropRight

/-!
# Values, signals and errors

The data every reader and query shares: bytes of source text, waveform values with the comparison
queries use (`Value.sameValue`), signal handles with their projection, absolute ticks and ranges,
and the errors the modelled functions return. A tick is a `u64` in the source and a `Nat` here, and
the places that bound it (the decimal parser of body timestamps, the default range end) say so. A
real value is its binary64 bit pattern, which is what comparison looks at.
-/

namespace Ondas

/-! ## Source bytes -/

/-- The bytes of an ASCII text. -/
def ascii (text : String) : List UInt8 :=
  text.toList.map fun c => UInt8.ofNat c.toNat

/-- `u8::is_ascii_whitespace`: space, tab, line feed, form feed and carriage return. -/
def isAsciiWhitespace (b : UInt8) : Bool :=
  b == 32 || b == 9 || b == 10 || b == 12 || b == 13

/-- `u8::is_ascii_digit`. -/
def isAsciiDigit (b : UInt8) : Bool :=
  48 ≤ b && b ≤ 57

/-- `u8::to_ascii_lowercase`. -/
def toAsciiLowercase (b : UInt8) : UInt8 :=
  if 65 ≤ b && b ≤ 90 then b + 32 else b

/-- Lowering a byte twice is lowering it once. -/
@[simp] theorem toAsciiLowercase_idem (b : UInt8) :
    toAsciiLowercase (toAsciiLowercase b) = toAsciiLowercase b := by
  unfold toAsciiLowercase
  split
  · next h =>
    simp only [Bool.and_eq_true, decide_eq_true_eq, UInt8.le_iff_toNat_le, UInt8.reduceToNat] at h
    have hsum : (b + 32).toNat = b.toNat + 32 := by
      rw [UInt8.toNat_add]; simp only [UInt8.reduceToNat]; omega
    simp only [UInt8.le_iff_toNat_le, hsum, UInt8.reduceToNat]
    rw [if_neg]
    simp only [Bool.and_eq_true, decide_eq_true_eq, not_and]
    omega
  · rfl

/-- The one comparison of an upper case letter with its lower case: two bytes are the same letter
when their lower cases are equal (`u8::eq_ignore_ascii_case`). -/
def eqIgnoreAsciiCase (xs ys : List UInt8) : Bool :=
  xs.map toAsciiLowercase == ys.map toAsciiLowercase

/-! ## Encodings and values -/

/-- The value encoding of a signal. -/
inductive Encoding where
  | bits (width : Nat)
  | real
  | string
  | event
  | unsupported
  deriving DecidableEq, Repr

/-- A waveform value. `ValueRef` borrows and `Value` owns the same payload; owned bits are lower
case (`Value.toOwned`). -/
inductive Value where
  | bits (digits : List UInt8)
  | real (raw : UInt64)
  | string (text : List UInt8)
  | event (occurrences : Nat)
  deriving DecidableEq, Repr

/-- The nine logic states, in either letter case. -/
def isLogic (b : UInt8) : Bool :=
  toAsciiLowercase b ∈ ascii "01xzhuwl-"

/-- `BitsRef::from_ascii` accepts these bytes: at most `u32::MAX` digits, each a logic state. -/
def fromAscii (bytes : List UInt8) : Bool :=
  decide (bytes.length < 2 ^ 32) && bytes.all isLogic

namespace Value

/-- `ValueRef::same_value`: representation identity, with letter case ignored in bits. -/
def sameValue : Value → Value → Bool
  | bits left, bits right => eqIgnoreAsciiCase left right
  | real left, real right => left == right
  | string left, string right => left == right
  | event left, event right => left == right
  | _, _ => false

/-- `ValueRef::to_owned`: bits are stored in lower case. -/
def toOwned : Value → Value
  | bits digits => bits (digits.map toAsciiLowercase)
  | real raw => real raw
  | string text => string text
  | event occurrences => event occurrences

/-- The value is an event observation. -/
def isEvent : Value → Bool
  | event _ => true
  | _ => false

@[simp] theorem toOwned_idem (v : Value) : v.toOwned.toOwned = v.toOwned := by
  cases v <;> simp [toOwned, List.map_map, Function.comp_def]

@[simp] theorem isEvent_toOwned (v : Value) : v.toOwned.isEvent = v.isEvent := by
  cases v <;> rfl

/-- On owned values `same_value` is equality. -/
theorem sameValue_iff {v w : Value} : v.sameValue w = true ↔ v.toOwned = w.toOwned := by
  cases v <;> cases w <;> simp [sameValue, toOwned, eqIgnoreAsciiCase]

/-- On owned values `same_value` is equality, as a Boolean. -/
theorem sameValue_owned {v w : Value} (hv : v.toOwned = v) (hw : w.toOwned = w) :
    v.sameValue w = decide (v = w) := by
  rw [Bool.eq_iff_iff, sameValue_iff, hv, hw, decide_eq_true_iff]

/-- The digits of a bit value. -/
def digits? : Value → Option (List UInt8)
  | bits digits => some digits
  | _ => none

end Value

/-- `BitsRef::slice`: the digits `msb` down to `lsb`, counted from the right. -/
def sliceDigits (data : List UInt8) (msb lsb : Nat) : List UInt8 :=
  (data.take (data.length - lsb)).drop (data.length - msb - 1)

/-! ## Signals -/

/-- A signal handle. -/
structure Signal where
  source : Nat
  index : Nat
  computed : Bool
  baseEncoding : Encoding
  encoding : Encoding
  lsb : Nat
  deriving DecidableEq, Repr

namespace Signal

/-- The current bit width. -/
def width (s : Signal) : Option Nat :=
  match s.encoding with
  | .bits width => some width
  | _ => none

/-- The complete underlying signal without a bit projection. -/
def base (s : Signal) : Signal :=
  { s with encoding := s.baseEncoding, lsb := 0 }

/-- The handle represents a bit projection. -/
def isSlice (s : Signal) : Bool :=
  s != s.base

end Signal

/-- `project`: a slice reads its digits of a bit value; every other value is read whole. -/
def project (value : Value) (signal : Signal) : Value :=
  match value with
  | .bits data =>
    if signal.isSlice then
      .bits (sliceDigits data (signal.lsb + signal.width.getD 0 - 1) signal.lsb)
    else value
  | _ => value

/-- Projection and ownership commute: both act digit by digit. -/
theorem toOwned_project (v : Value) (s : Signal) : (project v s).toOwned = project v.toOwned s := by
  cases v with
  | bits data =>
    by_cases h : s.isSlice
    · simp [project, h, sliceDigits, Value.toOwned, List.map_drop, List.map_take]
    · simp [project, h, Value.toOwned]
  | real | string | event => rfl

/-- Projection keeps events and only events. -/
@[simp] theorem isEvent_project (v : Value) (s : Signal) : (project v s).isEvent = v.isEvent := by
  cases v with
  | bits data => simp only [project]; split <;> rfl
  | real | string | event => rfl

/-! ## Times -/

/-- `u64::MAX`. -/
def u64Max : Nat := 2 ^ 64 - 1

/-- The inclusive span from the first to the last recorded tick. -/
structure TimeSpan where
  first : Nat
  last : Nat
  deriving DecidableEq, Repr

/-- An inclusive tick range; `stop` is the source's `end`, absent at the waveform end. -/
structure TimeRange where
  start : Nat
  stop : Option Nat
  deriving DecidableEq, Repr

namespace TimeRange

/-- The single-tick range `[time, time]`. -/
def point (time : Nat) : TimeRange := ⟨time, some time⟩

/-- The bounded range starts after its end. -/
def isEmpty (range : TimeRange) : Bool :=
  match range.stop with
  | some stop => decide (stop < range.start)
  | none => false

/-- The range covers a tick. -/
def covers (range : TimeRange) (time : Nat) : Prop :=
  range.start ≤ time ∧ ∀ stop, range.stop = some stop → time ≤ stop

end TimeRange

/-- The unit of a tick duration. -/
inductive TimeUnit where
  | second | millisecond | microsecond | nanosecond | picosecond | femtosecond | attosecond
  | zeptosecond
  deriving DecidableEq, Repr

/-- The exact duration of a tick. -/
structure Timescale where
  factor : Nat
  unit : TimeUnit
  deriving DecidableEq, Repr

/-- What a reader knows about a whole waveform. -/
structure Metadata where
  sourceName : String
  timescale : Option Timescale
  timeSpan : Option TimeSpan
  writer : Option String
  date : Option String
  comments : List String
  deriving DecidableEq, Repr

/-! ## Errors -/

/-- The waveform formats. -/
inductive Format where
  | vcd | fst | ghw | fsdb | wlf | wdb | shm
  deriving DecidableEq, Repr

/-- Why parts cannot be composed. -/
inductive CompositionError where
  | empty
  | notBits (part : Nat) (signal : Signal)
  | emptyPart (part : Nat) (signal : Signal)
  | widthOverflow
  deriving DecidableEq, Repr

/-- The errors of the modelled functions, with the data they carry. -/
inductive Error where
  | io (message : String)
  | malformed (format : Format) (backend message : String)
  | unsupportedFeature (format : Format) (backend operation message : String)
  | nonAsciiString (format : Format) (backend : String) (time : Nat)
  | backend (backend operation message : String)
  | backendUnavailable (backend message : String)
  | invalidSelectionIndex (index len : Nat)
  | invalidQueryTime (requested current : Nat)
  | traceCoverage (requested : Nat) (range : TimeRange)
  | invalidSignal (signal : Signal)
  | unsupportedSignal (signal : Signal)
  | invalidComposition (reason : CompositionError)
  deriving DecidableEq, Repr

end Ondas
