import Mathlib.Algebra.Order.Ring.Int
import Mathlib.Data.List.Basic

/-!
# Content identity

The bytes that a parse reads are hashed while it reads them. An input is watched (`Watched`): what
`read` gives and what `consume` takes from the buffer goes to the hasher, `fill_buf` gives bytes
that are not taken yet, and a `seek` after the first byte breaks the pass. `State.finish` gives a
proof only when one pass covered the length of the content.

The input and the hasher are parameters. An input `Serves` a content that stays as it is, by what is
documented of `Read` and `BufRead`, and any call may fail; the digest of a hasher does not depend on
how the bytes are cut (`Hasher.Streams`).
-/

namespace Ondas.Ghw.Identity

/-! ## Inputs -/

/-- `io::Error`, with the kind that `scan` tells from others. -/
inductive IoError where
  | interrupted
  | other
  deriving DecidableEq, Repr

/-- `SeekFrom`. -/
inductive SeekFrom where
  | start (offset : Nat)
  | fromEnd (offset : Int)
  | current (offset : Int)
  deriving DecidableEq, Repr

/-- An input: `Read`, `BufRead` and `Seek` of its state. `read` takes the length of the output. -/
structure Input (σ : Type) where
  read : Nat → σ → Except IoError (List UInt8) × σ
  fillBuf : σ → Except IoError (List UInt8) × σ
  consume : Nat → σ → σ
  seek : SeekFrom → σ → Except IoError Nat × σ

/-- An input that serves a content: it has a position in it and a length that is buffered. A read
gives bytes from the position on and moves behind them, and none before the end of the content only
when none are asked for. The buffer holds bytes from the position on, and consuming moves behind
some of them. A read that fails moves nothing. Where a seek ends is left open. -/
structure Serves {σ : Type} (input : Input σ) (content : List UInt8) where
  position : σ → Nat
  buffered : σ → Nat
  read_ok : ∀ {n s bytes s'}, input.read n s = (.ok bytes, s') →
    bytes = (content.drop (position s)).take bytes.length ∧ position s' = position s + bytes.length
  read_end : ∀ {n s s'}, input.read n s = (.ok [], s') → 0 < n → content.length ≤ position s
  read_error : ∀ {n s error s'}, input.read n s = (.error error, s') → position s' = position s
  fillBuf_ok : ∀ {s bytes s'}, input.fillBuf s = (.ok bytes, s') →
    bytes = (content.drop (position s)).take bytes.length ∧ position s' = position s ∧
      buffered s' = bytes.length ∧ buffered s ≤ bytes.length
  fillBuf_error : ∀ {s error s'}, input.fillBuf s = (.error error, s') → position s' = position s
  consume_ok : ∀ {amount s}, amount ≤ buffered s →
    position (input.consume amount s) = position s + amount

/-! ## Hashers -/

/-- A hasher that takes bytes and gives a digest. -/
structure Hasher (H D : Type) where
  new : H
  update : H → List UInt8 → H
  finalize : H → D

/-- The digest of bytes that come in pieces. -/
def Hasher.digest {H D : Type} (hasher : Hasher H D) (pieces : List (List UInt8)) : D :=
  hasher.finalize (pieces.foldl hasher.update hasher.new)

/-- The digest is that of the bytes, however they are cut. -/
def Hasher.Streams {H D : Type} (hasher : Hasher H D) : Prop :=
  ∀ pieces, hasher.digest pieces = hasher.digest [pieces.flatten]

/-- `ContentIdentity`. -/
structure ContentIdentity (D : Type) where
  length : Nat
  digest : D
  deriving DecidableEq, Repr

/-- `State`. -/
structure State (H : Type) where
  hasher : H
  covered : Nat
  sequential : Bool
  finished : Bool

/-! ## Watched inputs -/

section
variable {σ H D : Type} (input : Input σ) (hasher : Hasher H D)

/-- `Identity::new`. -/
def State.new : State H := ⟨hasher.new, 0, true, false⟩

/-- `Identity::finish`. -/
def State.finish (length : Nat) (state : State H) : Option (ContentIdentity D) × State H :=
  if state.finished || !state.sequential || state.covered != length then (none, state)
  else (some ⟨length, hasher.finalize state.hasher⟩,
    { state with finished := true, hasher := hasher.new })

/-- `Identity::update`. -/
def State.update (bytes : List UInt8) (state : State H) : State H :=
  if bytes.isEmpty then state
  else if state.finished || !state.sequential then state
  else { state with
    hasher := hasher.update state.hasher bytes
    covered := (state.covered + bytes.length) % 2 ^ 64 }

/-- `Identity::broke_sequence`. -/
def State.brokeSequence (state : State H) : State H := { state with sequential := false }

/-- `Watched`, with the state of its identity. -/
structure Watched (σ H : Type) where
  input : σ
  identity : State H

/-- `Watched::read`. -/
def Watched.read (n : Nat) (w : Watched σ H) : Watched σ H :=
  match input.read n w.input with
  | (.ok bytes, s) => ⟨s, w.identity.update hasher bytes⟩
  | (.error _, s) => ⟨s, w.identity⟩

/-- `Watched::fill_buf`. -/
def Watched.fillBuf (w : Watched σ H) : Watched σ H := ⟨(input.fillBuf w.input).2, w.identity⟩

/-- `Watched::consume`. -/
def Watched.consume (amount : Nat) (w : Watched σ H) : Watched σ H :=
  match input.fillBuf w.input with
  | (.ok bytes, s) =>
    ⟨input.consume amount s, w.identity.update hasher (bytes.take (min amount bytes.length))⟩
  | (.error _, s) => ⟨input.consume amount s, w.identity.brokeSequence⟩

/-- `Watched::seek`. -/
def Watched.seek (target : SeekFrom) (w : Watched σ H) : Watched σ H :=
  ⟨(input.seek target w.input).2,
    if 0 < w.identity.covered then w.identity.brokeSequence else w.identity⟩

/-- A call on a watched input, or on its identity. -/
inductive Call where
  | read (n : Nat)
  | fillBuf
  | consume (amount : Nat)
  | seek (target : SeekFrom)
  | finish (length : Nat)

/-- A call, with the proof that it gives. -/
def Watched.call (call : Call) (w : Watched σ H) : Option (ContentIdentity D) × Watched σ H :=
  match call with
  | .read n => (none, w.read input hasher n)
  | .fillBuf => (none, w.fillBuf input)
  | .consume amount => (none, w.consume input hasher amount)
  | .seek target => (none, w.seek input target)
  | .finish length =>
    let (identity, state) := w.identity.finish hasher length
    (identity, ⟨w.input, state⟩)

/-- The proofs that calls give, one after the other. -/
def Watched.calls : List Call → Watched σ H → List (Option (ContentIdentity D))
  | [], _ => []
  | call :: rest, w =>
    (w.call input hasher call).1 :: Watched.calls rest (w.call input hasher call).2

/-- No call consumes more than is buffered. -/
def Allowed {content : List UInt8} (serves : Serves input content) :
    List Call → Watched σ H → Prop
  | [], _ => True
  | call :: rest, w =>
    (∀ amount, call = .consume amount → amount ≤ serves.buffered w.input) ∧
      Allowed serves rest (w.call input hasher call).2

/-! ## Scanning -/

/-- The loop of `scan`, with a bound on its turns. -/
def scanLoop : Nat → H → Nat → σ → Option (Except IoError (H × Nat) × σ)
  | 0, _, _, _ => none
  | turns + 1, h, length, s =>
    match input.read (64 * 1024) s with
    | (.ok [], s) => some (.ok (h, length), s)
    | (.ok bytes, s) => scanLoop turns (hasher.update h bytes) ((length + bytes.length) % 2 ^ 64) s
    | (.error .interrupted, s) => scanLoop turns h length s
    | (.error error, s) => some (.error error, s)

/-- `scan`. -/
def scan (turns : Nat) (s : σ) : Option (Except IoError (ContentIdentity D) × σ) :=
  (scanLoop input hasher turns hasher.new 0 s).map fun (result, s) =>
    let (rewind, s) := input.seek (.start 0) s
    (do
      let (h, length) ← result
      let _ ← rewind
      pure ⟨length, hasher.finalize h⟩, s)

end

/-! ## What is covered -/

section
variable {σ H D : Type} {input : Input σ} {hasher : Hasher H D} {content : List UInt8}
  {serves : Serves input content} {w : Watched σ H} {state : State H}

/-- The bytes of a content from a place on, as pieces that went to a hasher. -/
structure Covers (hasher : Hasher H D) (content : List UInt8) (start covered : Nat)
    (pieces : List (List UInt8)) (h : H) : Prop where
  hashed : h = pieces.foldl hasher.update hasher.new
  bytes : pieces.flatten = (content.drop start).take covered
  length : pieces.flatten.length = covered

/-- The pieces and the bytes behind them. -/
theorem Covers.update {start covered : Nat} {pieces : List (List UInt8)} {h : H}
    (hcovers : Covers hasher content start covered pieces h) {bytes : List UInt8}
    (hbytes : bytes = (content.drop (start + covered)).take bytes.length) :
    Covers hasher content start (covered + bytes.length) (pieces ++ [bytes])
      (hasher.update h bytes) where
  hashed := by rw [List.foldl_append, ← hcovers.hashed]; rfl
  bytes := by
    rw [List.flatten_append, List.flatten_singleton, List.take_add, List.drop_drop, ← hbytes,
      hcovers.bytes]
  length := by
    rw [List.flatten_append, List.flatten_singleton, List.length_append, hcovers.length]

/-- No more is covered than there is. -/
theorem Covers.within {start covered : Nat} {pieces : List (List UInt8)} {h : H}
    (hcovers : Covers hasher content start covered pieces h) : covered ≤ content.length := by
  have hlength := hcovers.length
  rw [hcovers.bytes, List.length_take, List.length_drop] at hlength
  omega

/-- The content is covered when as much is covered as it has. -/
theorem Covers.all {start : Nat} {pieces : List (List UInt8)} {h : H}
    (hcovers : Covers hasher content start content.length pieces h) : pieces.flatten = content := by
  have hlength := hcovers.length
  rw [hcovers.bytes, List.length_take, List.length_drop] at hlength
  rw [hcovers.bytes]
  rcases Nat.eq_zero_or_pos start with rfl | hpos
  · exact List.take_length
  · have hempty : content = [] := List.eq_nil_of_length_eq_zero (by omega)
    rw [hempty, List.drop_nil, List.take_nil]

/-- Where nothing is covered, the place does not matter. -/
theorem Covers.none {start : Nat} {pieces : List (List UInt8)} {h : H}
    (hcovers : Covers hasher content start 0 pieces h) (start' : Nat) :
    Covers hasher content start' 0 pieces h where
  hashed := hcovers.hashed
  bytes := by rw [hcovers.bytes, List.take_zero, List.take_zero]
  length := hcovers.length

/-- While its pass is not broken and no proof was given, an identity has hashed the bytes from some
place on, up to the position of the input. -/
def Tracks (serves : Serves input content) (hasher : Hasher H D) (w : Watched σ H) : Prop :=
  w.identity.finished = false → w.identity.sequential = true → ∃ start pieces,
    Covers hasher content start w.identity.covered pieces w.identity.hasher ∧
      serves.position w.input = start + w.identity.covered

/-! ## One call -/

/-- A new identity has hashed nothing, wherever its input is. -/
theorem Tracks.new (s : σ) : Tracks serves hasher ⟨s, State.new hasher⟩ :=
  fun _ _ => ⟨serves.position s, [], ⟨rfl, List.take_zero.symm, rfl⟩, rfl⟩

/-- An input that stays where it is. -/
theorem Tracks.stay (htracks : Tracks serves hasher w) {s : σ}
    (hposition : serves.position s = serves.position w.input) :
    Tracks serves hasher ⟨s, w.identity⟩ := by
  intro hfinished hsequential
  obtain ⟨start, pieces, hcovers, hat⟩ := htracks hfinished hsequential
  exact ⟨start, pieces, hcovers, hposition.trans hat⟩

/-- A broken pass. -/
theorem Tracks.broken (s : σ) : Tracks serves hasher ⟨s, state.brokeSequence⟩ :=
  fun _ hsequential => absurd hsequential Bool.false_ne_true

/-- The bytes at the position go to the hasher, and the position behind them. -/
theorem Tracks.update (hsize : content.length < 2 ^ 64) (htracks : Tracks serves hasher w)
    {bytes : List UInt8} {s : σ}
    (hbytes : bytes = (content.drop (serves.position w.input)).take bytes.length)
    (hposition : serves.position s = serves.position w.input + bytes.length) :
    Tracks serves hasher ⟨s, w.identity.update hasher bytes⟩ := by
  unfold State.update
  split
  · next hempty =>
    rw [List.isEmpty_iff.mp hempty] at hposition
    exact htracks.stay hposition
  · split
    · next hstopped =>
      intro hfinished hsequential
      rw [hfinished, hsequential] at hstopped
      exact absurd hstopped Bool.false_ne_true
    · intro hfinished hsequential
      obtain ⟨start, pieces, hcovers, hat⟩ := htracks hfinished hsequential
      rw [hat] at hbytes
      have hmore := hcovers.update hbytes
      have hcovered : (w.identity.covered + bytes.length) % 2 ^ 64 =
          w.identity.covered + bytes.length :=
        Nat.mod_eq_of_lt (Nat.lt_of_le_of_lt hmore.within hsize)
      refine ⟨start, pieces ++ [bytes], ?_, ?_⟩
      · exact hcovered.symm ▸ hmore
      · show serves.position s = start + (w.identity.covered + bytes.length) % 2 ^ 64
        rw [hcovered, hposition, hat, Nat.add_assoc]

/-- Fewer of the bytes at a place. -/
theorem take_spelled {place n : Nat} {bytes : List UInt8}
    (hbytes : bytes = (content.drop place).take bytes.length) :
    bytes.take n = (content.drop place).take (bytes.take n).length := by
  rw [List.length_take]
  conv_lhs => rw [hbytes]
  rw [List.take_take]

/-- Any call keeps track of the input. -/
theorem Tracks.call (hsize : content.length < 2 ^ 64) (htracks : Tracks serves hasher w)
    (call : Call) (hallowed : ∀ amount, call = .consume amount → amount ≤ serves.buffered w.input) :
    Tracks serves hasher (w.call input hasher call).2 := by
  cases call with
  | read n =>
    show Tracks serves hasher (w.read input hasher n)
    unfold Watched.read
    split
    · next bytes s hread =>
      obtain ⟨hbytes, hposition⟩ := serves.read_ok hread
      exact htracks.update hsize hbytes hposition
    · next error s hread => exact htracks.stay (serves.read_error hread)
  | fillBuf =>
    cases hfill : input.fillBuf w.input with
    | mk result s =>
      have hposition : serves.position s = serves.position w.input := by
        cases result with
        | ok bytes => exact (serves.fillBuf_ok hfill).2.1
        | error error => exact serves.fillBuf_error hfill
      show Tracks serves hasher ⟨(input.fillBuf w.input).2, w.identity⟩
      rw [hfill]
      exact htracks.stay hposition
  | consume amount =>
    show Tracks serves hasher (w.consume input hasher amount)
    unfold Watched.consume
    split
    · next bytes s hfill =>
      -- the buffer holds what is consumed, so it is hashed whole
      obtain ⟨hbytes, hposition, hbuffered, hle⟩ := serves.fillBuf_ok hfill
      have hamount : amount ≤ bytes.length := Nat.le_trans (hallowed amount rfl) hle
      have htaken : (bytes.take (min amount bytes.length)).length = amount := by
        rw [List.length_take]
        omega
      refine htracks.update hsize (take_spelled hbytes) ?_
      rw [htaken, serves.consume_ok (by omega), hposition]
    · exact Tracks.broken _
  | seek target =>
    show Tracks serves hasher (w.seek input target)
    unfold Watched.seek
    split
    · exact Tracks.broken _
    · next hnone =>
      have hzero : w.identity.covered = 0 := by omega
      intro hfinished hsequential
      obtain ⟨start, pieces, hcovers, -⟩ := htracks hfinished hsequential
      rw [hzero] at hcovers
      refine ⟨serves.position (input.seek target w.input).2, pieces, ?_, ?_⟩
      · exact hzero.symm ▸ hcovers.none _
      · show _ = _ + w.identity.covered
        rw [hzero, Nat.add_zero]
  | finish length =>
    show Tracks serves hasher ⟨w.input, (w.identity.finish hasher length).2⟩
    unfold State.finish
    split
    · exact htracks
    · exact fun hfinished => absurd hfinished.symm Bool.false_ne_true

/-- What an update, a broken pass and a finish keep of an identity, any call keeps. -/
theorem call_keeps {P : State H → Prop}
    (hupdate : ∀ {state} bytes, P state → P (state.update hasher bytes))
    (hbroke : ∀ {state}, P state → P state.brokeSequence)
    (hfinish : ∀ {state} length, P state → P (state.finish hasher (D := D) length).2)
    (hholds : P w.identity) (call : Call) : P (w.call input hasher call).2.identity := by
  cases call with
  | read n =>
    show P (w.read input hasher n).identity
    unfold Watched.read
    split
    · exact hupdate _ hholds
    · exact hholds
  | fillBuf => exact hholds
  | consume amount =>
    show P (w.consume input hasher amount).identity
    unfold Watched.consume
    split
    · exact hupdate _ hholds
    · exact hbroke hholds
  | seek target =>
    show P (if 0 < w.identity.covered then w.identity.brokeSequence else w.identity)
    split
    · exact hbroke hholds
    · exact hholds
  | finish length => exact hfinish length hholds

/-- What is covered stays in its 64 bits. -/
theorem covered_lt (hcovered : w.identity.covered < 2 ^ 64) (call : Call) :
    (w.call input hasher call).2.identity.covered < 2 ^ 64 := by
  refine call_keeps (P := fun state => state.covered < 2 ^ 64) ?_ id ?_ hcovered call
  · intro state bytes hcovered
    unfold State.update
    split
    · exact hcovered
    · split
      · exact hcovered
      · exact Nat.mod_lt _ (by decide)
  · intro state length hcovered
    unfold State.finish
    split <;> exact hcovered

/-- A finished identity stays finished. -/
theorem call_finished (hfinished : w.identity.finished = true) (call : Call) :
    (w.call input hasher call).2.identity.finished = true := by
  refine call_keeps (P := fun state => state.finished = true) ?_ id ?_ hfinished call
  · intro state bytes hfinished
    unfold State.update
    split
    · exact hfinished
    · rw [hfinished]
      exact hfinished
  · intro state length hfinished
    unfold State.finish
    split
    · exact hfinished
    · rfl

/-! ## Proofs -/

/-- A proof is given in one unbroken pass that covers the length, and no other after it. -/
theorem finish_eq_some {length : Nat} {identity : ContentIdentity D}
    (hproof : (state.finish hasher length).1 = some identity) :
    state.finished = false ∧ state.sequential = true ∧ state.covered = length ∧
      identity = ⟨length, hasher.finalize state.hasher⟩ ∧
      (state.finish hasher length).2.finished = true := by
  unfold State.finish at hproof ⊢
  split at hproof
  · exact absurd hproof nofun
  · next hholds =>
    rw [if_neg hholds]
    simp only [Bool.or_eq_true, Bool.not_eq_true', bne_iff_ne, ne_eq, not_or, Bool.not_eq_true,
      Decidable.not_not, Bool.not_eq_false] at hholds
    obtain ⟨⟨hfinished, hsequential⟩, hcovered⟩ := hholds
    exact ⟨hfinished, hsequential, hcovered, (Option.some.inj hproof).symm, rfl⟩

/-- A call that gives a proof is a finish, and leaves the identity finished. -/
theorem call_eq_some {call : Call} {identity : ContentIdentity D}
    (hproof : (w.call input hasher call).1 = some identity) :
    (w.call input hasher call).2.identity.finished = true := by
  cases call with
  | read n => exact absurd hproof nofun
  | fillBuf => exact absurd hproof nofun
  | consume amount => exact absurd hproof nofun
  | seek target => exact absurd hproof nofun
  | finish length => exact (finish_eq_some hproof).2.2.2.2

/-- A finished identity gives no proof. -/
theorem call_eq_none (hfinished : w.identity.finished = true) (call : Call) :
    (w.call input hasher call).1 = none := by
  cases call with
  | finish length =>
    cases hproof : (w.identity.finish hasher length).1 with
    | none => exact hproof
    | some identity =>
      exact absurd (hfinished.symm.trans (finish_eq_some hproof).1) (Bool.false_ne_true ·.symm)
  | _ => rfl

/-- A finished identity gives no proof in any call that follows. -/
theorem calls_finished (hfinished : w.identity.finished = true) (calls : List Call) (j : Nat)
    (identity : ContentIdentity D) :
    (Watched.calls input hasher calls w)[j]? ≠ some (some identity) := by
  induction calls generalizing w j with
  | nil => exact nofun
  | cons call rest ih =>
    cases j with
    | zero =>
      show some (w.call input hasher call).1 ≠ some (some identity)
      rw [call_eq_none hfinished call]
      exact nofun
    | succ j => exact ih (call_finished hfinished call) j

/-- The proof that a run gives for the length of the content: the content went to the hasher in
order, and the run gives no other proof. -/
theorem calls_proof (calls : List Call) (hcovered : w.identity.covered < 2 ^ 64)
    (htracks : content.length < 2 ^ 64 → Tracks serves hasher w)
    (hallowed : Allowed input hasher serves calls w) {i : Nat} {identity : ContentIdentity D}
    (hcall : calls[i]? = some (.finish content.length))
    (hproof : (Watched.calls input hasher calls w)[i]? = some (some identity)) :
    content.length < 2 ^ 64 ∧
      (∃ pieces, pieces.flatten = content ∧ identity = ⟨content.length, hasher.digest pieces⟩) ∧
      ∀ j other, (Watched.calls input hasher calls w)[j]? = some (some other) → j = i := by
  induction calls generalizing w i with
  | nil => exact absurd hcall nofun
  | cons call rest ih =>
    cases i with
    | zero =>
      obtain rfl := Option.some.inj hcall
      have hgiven : (w.identity.finish hasher content.length).1 = some identity :=
        Option.some.inj hproof
      obtain ⟨hfinished, hsequential, hlength, rfl, hafter⟩ := finish_eq_some hgiven
      have hsize : content.length < 2 ^ 64 := hlength ▸ hcovered
      obtain ⟨start, pieces, hcovers, -⟩ := htracks hsize hfinished hsequential
      rw [hlength] at hcovers
      refine ⟨hsize, ⟨pieces, hcovers.all, ?_⟩, ?_⟩
      · rw [hcovers.hashed]
        rfl
      · intro j other hother
        cases j with
        | zero => rfl
        | succ j => exact absurd hother (calls_finished hafter rest j other)
    | succ i =>
      obtain ⟨hsize, hpieces, hother⟩ := ih (covered_lt hcovered call)
        (fun hsize => (htracks hsize).call hsize call hallowed.1) hallowed.2 hcall hproof
      refine ⟨hsize, hpieces, ?_⟩
      intro j other hgiven
      cases j with
      | zero =>
        -- a proof here would leave none for later
        have hafter := call_eq_some (Option.some.inj hgiven)
        exact absurd hproof (calls_finished hafter rest i identity)
      | succ j => exact congrArg (· + 1) (hother j other hgiven)

/-! ## The scan -/

/-- The loop covers the content from the position on. -/
theorem scanLoop_covers (hsize : content.length < 2 ^ 64) {turns : Nat} {h h' : H}
    {length length' : Nat} {s s' : σ} {pieces : List (List UInt8)}
    (hcovers : Covers hasher content 0 length pieces h) (hposition : serves.position s = length)
    (hscan : scanLoop input hasher turns h length s = some (.ok (h', length'), s')) :
    ∃ pieces, Covers hasher content 0 content.length pieces h' ∧ length' = content.length := by
  induction turns generalizing h length s pieces with
  | zero => exact absurd hscan nofun
  | succ turns ih =>
    unfold scanLoop at hscan
    split at hscan
    · next s'' hread =>
      have hend := serves.read_end hread (by decide)
      have hlength : length = content.length := by
        have hwithin := hcovers.within
        omega
      obtain ⟨hresult, -⟩ := Prod.mk.inj (Option.some.inj hscan)
      obtain ⟨rfl, rfl⟩ := Prod.mk.inj (Except.ok.inj hresult)
      exact ⟨pieces, hlength ▸ hcovers, hlength⟩
    · next bytes s'' _ hread =>
      obtain ⟨hbytes, hafter⟩ := serves.read_ok hread
      rw [hposition] at hbytes hafter
      have hmore := hcovers.update (by rwa [Nat.zero_add])
      have hcovered : (length + bytes.length) % 2 ^ 64 = length + bytes.length :=
        Nat.mod_eq_of_lt (Nat.lt_of_le_of_lt hmore.within hsize)
      rw [hcovered] at hscan
      exact ih hmore hafter hscan
    · next s'' hread => exact ih hcovers ((serves.read_error hread).trans hposition) hscan
    · exact absurd (Prod.mk.inj (Option.some.inj hscan)).1 nofun

/-- Unless a read is interrupted, each turn of the loop is a step in the content. -/
theorem scanLoop_returns (serves : Serves input content)
    (hread : ∀ s s', input.read (64 * 1024) s ≠ (.error .interrupted, s')) {turns : Nat} {h : H}
    {length : Nat} {s : σ} (hturns : content.length - serves.position s < turns) :
    ∃ result, scanLoop input hasher turns h length s = some result := by
  induction turns generalizing h length s with
  | zero => exact absurd hturns (Nat.not_lt_zero _)
  | succ turns ih =>
    unfold scanLoop
    split
    · exact ⟨_, rfl⟩
    · next bytes s' hbytes hok =>
      obtain ⟨hspelled, hposition⟩ := serves.read_ok hok
      have hlength := congrArg List.length hspelled
      rw [List.length_take, List.length_drop] at hlength
      have hpos : 0 < bytes.length := List.length_pos_iff.mpr hbytes
      exact ih (by omega)
    · next s' herror => exact absurd herror (hread s s')
    · exact ⟨_, rfl⟩

/-- A scan from the start of the content gives its length and the digest of its bytes. -/
theorem scan_covers (hsize : content.length < 2 ^ 64) {turns : Nat} {s s' : σ}
    {scanned : ContentIdentity D} (hposition : serves.position s = 0)
    (hscan : scan input hasher turns s = some (.ok scanned, s')) :
    ∃ pieces, pieces.flatten = content ∧ scanned = ⟨content.length, hasher.digest pieces⟩ := by
  obtain ⟨⟨result, s''⟩, hloop, hrewind⟩ := Option.map_eq_some_iff.mp hscan
  have hresult := (Prod.mk.inj hrewind).1
  cases result with
  | error error => exact absurd hresult nofun
  | ok read =>
    obtain ⟨h, length⟩ := read
    obtain ⟨pieces, hcovers, rfl⟩ := scanLoop_covers hsize
      (⟨rfl, List.take_zero.symm, rfl⟩ : Covers hasher content 0 0 [] hasher.new) hposition hloop
    refine ⟨pieces, hcovers.all, ?_⟩
    cases hseek : (input.seek (.start 0) s'').1 with
    | error error => exact absurd (hseek ▸ hresult) nofun
    | ok offset =>
      have hgiven : Except.ok ⟨content.length, hasher.finalize h⟩ =
          (Except.ok scanned : Except IoError (ContentIdentity D)) := by
        rw [← hresult]
        show _ = Except.bind (input.seek (.start 0) s'').1 _
        rw [hseek]
        rfl
      rw [← Except.ok.inj hgiven, hcovers.hashed]
      rfl

/-- Unless a read is interrupted, a scan returns in one turn more than there are bytes. -/
theorem scan_returns (serves : Serves input content)
    (hread : ∀ s s', input.read (64 * 1024) s ≠ (.error .interrupted, s')) (s : σ) :
    ∃ result, scan input hasher (content.length + 1) s = some result := by
  have hloop : ∃ result, scanLoop input hasher (content.length + 1) hasher.new 0 s = some result :=
    scanLoop_returns serves hread (by omega)
  obtain ⟨result, hloop⟩ := hloop
  exact ⟨_, congrArg (Option.map _) hloop⟩

/-- **A content proof covers the content.** In any run of calls on a watched input that serves a
content, where any call may fail and none consumes more than is buffered, a finish with the length
of the content gives a proof only when the digest is that of the bytes of the content, in order and
each once. No other finish of the run gives one. A scan of any input that serves the content, from
its start, gives the same identity when it gives one; it returns unless a read is interrupted. -/
theorem proof_covers_content (hstreams : hasher.Streams) (serves : Serves input content) (s : σ)
    (calls : List Call) (hallowed : Allowed input hasher serves calls ⟨s, State.new hasher⟩)
    {i : Nat} {identity : ContentIdentity D} (hcall : calls[i]? = some (.finish content.length))
    (hproof : (Watched.calls input hasher calls ⟨s, State.new hasher⟩)[i]? = some (some identity)) :
    identity = ⟨content.length, hasher.digest [content]⟩ ∧
      (∃ pieces, pieces.flatten = content ∧ identity.digest = hasher.digest pieces) ∧
      (∀ j other, (Watched.calls input hasher calls ⟨s, State.new hasher⟩)[j]? = some (some other) →
        j = i) ∧
      ∀ {τ : Type} (input : Input τ) (serves : Serves input content) (t : τ),
      serves.position t = 0 →
        ((∀ t t', input.read (64 * 1024) t ≠ (.error .interrupted, t')) →
          ∃ result, scan input hasher (content.length + 1) t = some result) ∧
        ∀ turns scanned t', scan input hasher turns t = some (.ok scanned, t') →
          scanned = identity := by
  have hdigest : ∀ {pieces : List (List UInt8)}, pieces.flatten = content →
      hasher.digest pieces = hasher.digest [content] := by
    intro pieces hpieces
    rw [hstreams pieces, hpieces]
  obtain ⟨hsize, ⟨pieces, hpieces, rfl⟩, hother⟩ :=
    calls_proof calls (Nat.two_pow_pos 64) (fun _ => Tracks.new s) hallowed hcall hproof
  refine ⟨?_, ⟨pieces, hpieces, rfl⟩, hother, ?_⟩
  · rw [hdigest hpieces]
  · intro τ input serves t hposition
    refine ⟨fun hread => scan_returns serves hread t, ?_⟩
    intro turns scanned t' hscan
    obtain ⟨again, hagain, rfl⟩ := scan_covers hsize hposition hscan
    rw [hdigest hpieces, hdigest hagain]

end

/-! ## An input in memory -/

section
variable (content : List UInt8)

/-- `Cursor` over bytes in memory: its state is the position, and all that follows is buffered. -/
def cursor : Input Nat where
  read n place := (.ok ((content.drop place).take n), place + ((content.drop place).take n).length)
  fillBuf place := (.ok (content.drop place), place)
  consume amount place := place + amount
  seek target place :=
    let goal : Int := match target with
      | .start offset => offset
      | .fromEnd offset => content.length + offset
      | .current offset => place + offset
    if goal < 0 then (.error .other, place) else (.ok goal.toNat, goal.toNat)

/-- A cursor serves its bytes. -/
def cursorServes : Serves (cursor content) content where
  position place := place
  buffered place := content.length - place
  read_ok := by
    rintro n s bytes s' hread
    obtain ⟨hbytes, rfl⟩ := Prod.mk.inj hread
    obtain rfl := Except.ok.inj hbytes
    refine ⟨?_, rfl⟩
    rw [List.length_take, ← List.take_take, List.take_length]
  read_end := by
    rintro n s s' hread hpos
    have hlength := congrArg List.length (Except.ok.inj (Prod.mk.inj hread).1)
    rw [List.length_take, List.length_drop, List.length_nil] at hlength
    show content.length ≤ s
    omega
  read_error hread := absurd (Prod.mk.inj hread).1 nofun
  fillBuf_ok := by
    rintro s bytes s' hfill
    obtain ⟨hbytes, rfl⟩ := Prod.mk.inj hfill
    obtain rfl := Except.ok.inj hbytes
    exact ⟨List.take_length.symm, rfl, List.length_drop.symm, Nat.le_of_eq List.length_drop.symm⟩
  fillBuf_error hfill := absurd (Prod.mk.inj hfill).1 nofun
  consume_ok _ := rfl

end

/-- A hasher that keeps the bytes. -/
def recorder : Hasher (List UInt8) (List UInt8) := ⟨[], (· ++ ·), id⟩

/-- What is kept does not depend on how the bytes are cut. -/
theorem recorder_streams : recorder.Streams := by
  have hfold : ∀ pieces kept, List.foldl recorder.update kept pieces = kept ++ pieces.flatten := by
    intro pieces
    induction pieces with
    | nil => exact fun kept => (List.append_nil kept).symm
    | cons piece rest ih =>
      intro kept
      rw [List.foldl_cons, ih, List.flatten_cons, ← List.append_assoc]
      rfl
  intro pieces
  show List.foldl recorder.update [] pieces = List.foldl recorder.update [] [pieces.flatten]
  rw [hfold, hfold, List.flatten_singleton]

/-- The length is sought, a byte is read and two are consumed from the buffer: the first finish
gives the proof, the second none. -/
theorem proof_covers_three :
    (Watched.calls (cursor [7, 8, 9]) recorder
      [.seek (.fromEnd 0), .seek (.start 0), .read 1, .fillBuf, .consume 2, .finish 3, .finish 3]
      ⟨0, State.new recorder⟩)[6]? = some none ∧
    (⟨3, [7, 8, 9]⟩ : ContentIdentity (List UInt8)) = ⟨3, recorder.digest [[7, 8, 9]]⟩ := by
  have hallowed : Allowed (cursor [7, 8, 9]) recorder (cursorServes [7, 8, 9])
      [.seek (.fromEnd 0), .seek (.start 0), .read 1, .fillBuf, .consume 2, .finish 3, .finish 3]
      ⟨0, State.new recorder⟩ := by
    refine ⟨nofun, nofun, nofun, nofun, ?_, nofun, nofun, trivial⟩
    rintro amount hamount
    obtain rfl := Call.consume.inj hamount
    decide
  exact ⟨rfl, (proof_covers_content recorder_streams (cursorServes [7, 8, 9]) 0 _ hallowed (i := 5)
    rfl rfl).1⟩

end Ondas.Ghw.Identity
