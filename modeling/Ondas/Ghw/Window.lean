import Ondas.Ghw.Body

/-!
# The window of a cycle list

The bulk loop of the walk decodes records from the buffered bytes, and the checked reads decode them
one field at a time. Both give one walk (`walk_unbuffered`). A field decoded from a slice is what
the checked read of the slice gives (`windowField_some`), and a record that the slice leaves out
although its bytes are there is one that the checked read refuses (`windowField_none`). So a turn of
the bulk loop is a sequence of one-field steps (`window_steps`), and every run of the walk with the
window is a run of the walk without it.
-/

namespace Ondas.Ghw

open Library Wire

/-! ## The reads of the walk -/

/-- What a scalar is read from is not what is buffered of it. -/
theorem unbuffered_scalar (types : Types) (id : Nat) : Unbuffered (scalar types id) := by
  unfold scalar
  split
  · exact unbuffered_malformed _
  next storage literals _ _ =>
  cases storage with
  | b2 | e8 =>
    exact unbuffered_byte.bind fun _ =>
      (unbuffered_ensure _ fun _ _ h => h.malformed _).bind fun _ => .pure _
  | i32 | p32 => exact (unbuffered_sleb 32).bind fun _ => .pure _
  | i64 | p64 => exact (unbuffered_sleb 64).bind fun _ => .pure _
  | f64 => exact unbuffered_realBits.bind fun _ => .pure _

/-- The position of the input does not depend on what is buffered. -/
theorem unbuffered_offset : Unbuffered (Decoder.look Wire.offset) :=
  .look fun w v h => by
    have := congrArg Wire.offset h
    exact this

/-- Reading a record of a cycle does not depend on it. -/
theorem unbuffered_cycleRecord (types : Types) (active : Active) (rank : Nat) :
    Unbuffered (cycleRecord types active rank) := by
  refine unbuffered_uleb.bind fun delta => .ite (.pure _) ?_
  refine (unbuffered_ensure _ fun _ _ h => h.malformed _).bind fun _ => ?_
  cases active[rank + delta - 1]? with
  | none => exact unbuffered_malformed _
  | some entry =>
    exact unbuffered_offset.bind fun _ => (unbuffered_scalar _ _).bind fun _ => .pure _

/-- Reading a tag does not depend on it. -/
theorem unbuffered_readTag (footer : Bool) : Unbuffered (readTag footer) :=
  (unbuffered_fixed 4).bind fun _ =>
    .ite (.ite (unbuffered_malformed _) (.pure _)) (.ite (.ite (unbuffered_malformed _) (.pure _))
      (.ite (.pure _) (.ite (unbuffered_malformed _) (unbuffered_unsupported _))))

theorem unbuffered_readSection (footer : Bool) : Unbuffered (readSection footer) :=
  unbuffered_atEof.bind fun _ => .ite (.pure _) ((unbuffered_readTag _).bind fun _ => .pure _)

theorem unbuffered_descriptor : Unbuffered descriptor :=
  unbuffered_bigEndian.bind fun _ => (unbuffered_fixed 4).bind fun _ =>
    unbuffered_ensure _ fun _ _ h => h.unsupported _

theorem unbuffered_directoryEntry : Unbuffered directoryEntry :=
  (unbuffered_fixed 4).bind fun _ => (unbuffered_ensure _ fun _ _ h => h.malformed _).bind fun _ =>
    unbuffered_u32.bind fun _ => .pure _

/-- Reading a directory does not depend on it. -/
theorem unbuffered_readDirectory : Unbuffered readDirectory :=
  unbuffered_descriptor.bind fun _ => (unbuffered_count _).bind fun _ =>
  unbuffered_left.bind fun _ =>
    (unbuffered_ensure _ fun _ _ h => h.malformed _).bind fun _ =>
      (unbuffered_directoryEntry.times _).bind fun _ => unbuffered_marker _

theorem unbuffered_readTailer : Unbuffered readTailer :=
  unbuffered_descriptor.bind fun _ => unbuffered_u32.bind fun _ => unbuffered_atEof.bind fun _ =>
    unbuffered_ensure _ fun _ _ h => h.malformed _

/-- A scalar takes at least a byte. -/
theorem moves_scalar (types : Types) (id : Nat) : Moves 1 (scalar types id) := by
  unfold scalar
  split
  · exact .fail _
  next storage literals _ _ =>
  cases storage with
  | b2 | e8 => exact moves_byte.first fun _ => (moves_ensure _ _).first fun _ => .pure _
  | i32 | p32 => exact (moves_sleb 32).first fun _ => .pure _
  | i64 | p64 => exact (moves_sleb 64).first fun _ => .pure _
  | f64 => exact (moves_realBits.first fun _ => .pure _).mono (by decide)

/-- A record of a cycle takes at least a byte. -/
theorem moves_cycleRecord (types : Types) (active : Active) (rank : Nat) :
    Moves 1 (cycleRecord types active rank) := by
  refine moves_uleb.first fun delta => .ite (.pure _) ?_
  refine (moves_ensure _ _).first fun _ => ?_
  cases active[rank + delta - 1]? with
  | none => exact .fail _
  | some entry => exact (Moves.look _).first fun _ => (moves_scalar _ _).zero.first fun _ => .pure _

theorem moves_readTag (footer : Bool) : Moves 4 (readTag footer) :=
  (moves_fixed 4).first fun _ => .ite (.ite (.fail _) (.pure _)) (.ite (.ite (.fail _) (.pure _))
    (.ite (.pure _) (.ite (.fail _) (.fail _))))

/-- A section starts with its tag. -/
theorem readSection_moves {footer : Bool} {w w' : Wire} {kind : Section}
    (h : readSection footer w = (.ok (some kind), w')) :
    ∃ n ≤ w.rest.length, 4 ≤ n ∧ Wire.Same w' (w.skip n) := by
  obtain ⟨eof, v, heof, hread⟩ := Decoder.bind_eq_ok.1 h
  obtain ⟨n, hn, hsame, -⟩ := moves_atEof w
  rw [heof] at hsame
  cases eof with
  | true => cases hread
  | false =>
    obtain ⟨kind', v', htag, hpure⟩ := Decoder.bind_eq_ok.1 hread
    cases hpure
    obtain ⟨m, hm, hsame', hfour⟩ := moves_readTag footer v
    rw [htag] at hsame' hfour
    rw [hsame.rest, skip_rest, List.length_drop] at hm
    have hskip := hsame.skip m
    rw [skip_skip] at hskip
    have := hfour kind rfl
    exact ⟨n + m, by omega, by omega, hsame'.trans hskip⟩

theorem moves_descriptor : Moves 4 descriptor :=
  (Moves.look _).second fun _ => (moves_fixed 4).first fun _ => moves_ensure _ _

theorem moves_directoryEntry : Moves 4 directoryEntry :=
  (moves_fixed 4).first fun _ => (moves_ensure _ _).first fun _ =>
  moves_u32.zero.first fun _ => .pure _

/-- A directory takes at least the four bytes of its length. -/
theorem moves_readDirectory : Moves 4 readDirectory :=
  moves_descriptor.first fun _ => (moves_count _).zero.first fun _ => (Moves.look _).first fun _ =>
    (moves_ensure _ _).first fun _ => (moves_times moves_directoryEntry.zero _).first fun _ =>
      (moves_marker _).zero

theorem moves_readTailer : Moves 4 readTailer :=
  moves_descriptor.first fun _ => moves_u32.zero.first fun _ => moves_atEof.first fun _ =>
    moves_ensure _ _

/-! ## Fields of a slice -/

/-- A field is read from the start of the input: the value, and how far the input moves. -/
def Yields {α : Type} (x : Read α) (w : Wire) (a : α) (n : Nat) : Prop :=
  ∃ w', x w = (.ok a, w') ∧ Same w' (w.skip n)

section
variable {α β : Type} {x : Read α} {f : α → Read β} {w w' : Wire} {a : α} {b : β} {m n : Nat}

/-- A read that moves on as another one ended. -/
theorem Yields.bind (hx : Yields x w a n) (hf : Yields (f a) (w.skip n) b m)
    (hunbuffered : Unbuffered (f a)) : Yields (x >>= f) w b (n + m) := by
  obtain ⟨w', hrun, hsame⟩ := hx
  obtain ⟨v, hrun', hsame'⟩ := hf
  obtain ⟨hresult, hrest⟩ := hunbuffered w' (w.skip n) hsame
  rw [hrun'] at hresult hrest
  refine ⟨(f a w').2, ?_, ?_⟩
  · rw [Decoder.bind_of_ok hrun]
    exact Prod.ext hresult rfl
  · rw [← skip_skip]
    exact hrest.trans hsame'

/-- A field read from an input is read from inputs that differ in the buffer. -/
theorem Yields.same (hx : Yields x w a n) (hunbuffered : Unbuffered x) (h : Wire.Same w' w) :
    Yields x w' a n := by
  obtain ⟨v, hrun, hsame⟩ := hx
  obtain ⟨hresult, hrest⟩ := hunbuffered w' w h
  rw [hrun] at hresult hrest
  exact ⟨(x w').2, Prod.ext hresult rfl, hrest.trans (hsame.trans (h.symm.skip n))⟩

/-- A result computed from what a read gives. -/
theorem Yields.map (g : α → β) (hx : Yields x w a n) :
    Yields (x >>= fun a => pure (g a)) w (g a) n :=
  Yields.bind (m := 0) hx ⟨_, rfl, rfl⟩ (.pure _)

/-- A guard that holds reads nothing. -/
theorem Yields.ensure {condition : Bool} {error : Wire → Error} {y : Unit → Read β}
    (h : condition = true) (hy : Yields (y ()) w b n) :
    Yields (Wire.ensure condition error >>= y) w b n := by
  subst h
  exact hy

/-- Looking at the input reads nothing. -/
theorem Yields.look (g : Wire → α) (hf : Yields (f (g w)) w b n) :
    Yields (Decoder.look g >>= f) w b n := hf

end

section
variable {V R : Type} {turn : Nat → V → UInt8 → LebTurn V R} {exceeds unterminated : String}

/-- A field decoded from a slice of the input is what the checked read gives. -/
theorem sliceLeb_some {fuel group n : Nat} {value : V} {bytes more : List UInt8} {result : R}
    (h : sliceLeb turn fuel group value bytes = some (result, n)) {w : Wire}
    (hrest : w.rest = bytes ++ more) :
    group < n ∧ n ≤ group + fuel ∧ n - group ≤ bytes.length ∧
      Yields (lebLoop turn exceeds unterminated fuel group value) w result (n - group) := by
  induction fuel generalizing group value bytes w with
  | zero => cases h
  | succ fuel ih =>
    cases bytes with
    | nil => cases h
    | cons b bytes =>
      rw [sliceLeb] at h
      have hbyte : Yields byte w b 1 := byte_eq hrest
      rw [List.length_cons]
      cases hturn : turn group value b with
      | exceeds => rw [hturn] at h; cases h
      | done value =>
        rw [hturn] at h
        cases h
        refine ⟨by omega, by omega, by omega, ?_⟩
        rw [show group + 1 - group = 1 + 0 by omega]
        refine hbyte.bind ?_ ?_
        · rw [hturn]; exact ⟨_, rfl, rfl⟩
        · rw [hturn]; exact .pure _
      | more value =>
        rw [hturn] at h
        have hnext : (w.skip 1).rest = bytes ++ more := by rw [skip_rest, hrest]; rfl
        obtain ⟨hlt, hfuel, hle, hloop⟩ := ih h hnext
        refine ⟨by omega, by omega, by omega, ?_⟩
        rw [show n - group = 1 + (n - (group + 1)) by omega]
        refine hbyte.bind ?_ ?_
        · rw [hturn]; exact hloop
        · rw [hturn]; exact unbuffered_lebLoop _ _ _ _ _ _

/-- A field that does not decode although its bytes are there, or although the slice is all that is
left, is refused by the checked read. -/
theorem sliceLeb_none {fuel group : Nat} {value : V} {bytes more : List UInt8}
    (h : sliceLeb turn fuel group value bytes = none) (hlength : fuel ≤ bytes.length ∨ more = [])
    {w : Wire} (hrest : w.rest = bytes ++ more) :
    ∃ e w', lebLoop turn exceeds unterminated fuel group value w = (.error e, w') := by
  induction fuel generalizing group value bytes w with
  | zero => exact ⟨_, w, rfl⟩
  | succ fuel ih =>
    cases bytes with
    | nil =>
      rcases hlength with hlength | rfl
      · cases hlength
      · obtain ⟨w', hend, -⟩ := byte_end hrest
        exact ⟨_, w', Decoder.bind_of_error hend⟩
    | cons b bytes =>
      rw [sliceLeb] at h
      obtain ⟨w', hbyte, hsame⟩ := byte_eq (w := w) hrest
      rw [lebLoop, Decoder.bind_of_ok hbyte]
      cases hturn : turn group value b with
      | exceeds => exact ⟨_, w', rfl⟩
      | done value => rw [hturn] at h; cases h
      | more value =>
        rw [hturn] at h
        rw [List.length_cons] at hlength
        have hnext : w'.rest = bytes ++ more := by rw [hsame.rest, skip_rest, hrest]; rfl
        exact ih h (hlength.imp_left Nat.le_of_succ_le_succ) hnext

end

/-- The first group of an unsigned field is one group of its loop. -/
theorem uleb_eq : uleb = lebLoop ulebTurn "ULEB128 exceeds 32 bits" "unterminated ULEB128"
    5 0 0 := by
  have hlow : ∀ i : Fin 256, UInt8.ofNat i &&& 0x80 = 0 →
      UInt8.ofNat i &&& 0x7f = UInt8.ofNat i := by
    decide +kernel
  have hturn : ∀ b, ulebTurn 0 0 b =
      if b &&& 0x80 = 0 then .done (b &&& 0x7f).toNat else .more (b &&& 0x7f).toNat := by
    intro b
    unfold ulebTurn
    rw [if_neg (by rintro ⟨h, -⟩; cases h)]
    simp only [Nat.zero_or, Nat.mul_zero, Nat.shiftLeft_zero]
  unfold uleb
  rw [lebLoop]
  congr 1
  funext b
  have hb := hlow ⟨b.toNat, b.toNat_lt⟩
  rw [UInt8.ofNat_toNat] at hb
  rw [hturn]
  split
  · next hend => rw [hb hend]
  · rfl

/-- A rank delta decoded from a slice of the input is what the checked read gives. -/
theorem windowUleb_some {bytes more : List UInt8} {delta n : Nat}
    (h : windowUleb bytes = some (delta, n)) {w : Wire} (hrest : w.rest = bytes ++ more) :
    0 < n ∧ n ≤ 5 ∧ n ≤ bytes.length ∧ Yields uleb w delta n := by
  obtain ⟨hpos, hfive, hle, hyields⟩ := sliceLeb_some h hrest
  rw [uleb_eq]
  exact ⟨hpos, by omega, hle, hyields⟩

/-- A number that the window cannot decode, with enough bytes in it, is not decoded by the reader
either. -/
theorem windowUleb_none {bytes more : List UInt8} (h : windowUleb bytes = none)
    (hlength : 5 ≤ bytes.length) {w : Wire} (hrest : w.rest = bytes ++ more) :
    ∃ e w', uleb w = (.error e, w') := by
  rw [uleb_eq]
  exact sliceLeb_none h (.inl hlength) hrest

section
variable {types : Types} {id : Nat} {bytes more : List UInt8} {w : Wire}

/-- Eight bytes of a slice are the checked read of a real payload. -/
theorem yields_realBits (hlength : 8 ≤ bytes.length) (hrest : w.rest = bytes ++ more) :
    Yields realBits w (UInt64.ofNat (fromBytes w.bigEndian (bytes.take 8))) 8 := by
  rcases fixed_eq 8 w with ⟨-, w', hrun, hsame⟩ | ⟨hlt, -⟩
  · have htake : w.rest.take 8 = bytes.take 8 := by
      rw [hrest, List.take_append_of_le_length hlength]
    have horder : w'.bigEndian = w.bigEndian := by
      have := congrArg Wire.bigEndian hsame
      exact this
    refine ⟨w', ?_, hsame⟩
    unfold realBits
    rw [Decoder.bind_of_ok hrun, htake, ← horder]
    rfl
  · rw [hrest, List.length_append] at hlt
    omega

/-- A value decoded from a slice of the input is what the checked read gives. -/
theorem windowValue_some {value : Scalar} {n : Nat}
    (h : windowValue types w.bigEndian id bytes = some (value, n))
    (hrest : w.rest = bytes ++ more) :
    0 < n ∧ n ≤ 10 ∧ n ≤ bytes.length ∧ Yields (scalar types id) w value n := by
  unfold windowValue at h
  unfold scalar
  split at h
  · cases h
  next storage literals wkt htype =>
  have hsleb : ∀ bits, groups bits ≤ 10 →
      (decodeSleb bits bytes).map (fun field => (Scalar.integer field.1, field.2)) =
        some (value, n) →
      0 < n ∧ n ≤ 10 ∧ n ≤ bytes.length ∧ Yields (do
        let value ← sleb bits
        pure (Scalar.integer value)) w value n := by
    intro bits hbits h
    obtain ⟨⟨signed, n⟩, hfield, heq⟩ := Option.map_eq_some_iff.1 h
    cases heq
    obtain ⟨hpos, hle, hlength, hyields⟩ := sliceLeb_some hfield hrest
    refine ⟨hpos, by omega, hlength, ?_⟩
    exact hyields.map _
  cases storage with
  | b2 | e8 =>
    dsimp only at h ⊢
    cases bytes with
    | nil => cases h
    | cons b bytes =>
      dsimp only at h
      split at h
      · next hlt =>
        cases h
        refine ⟨Nat.one_pos, by decide, by simp, ?_⟩
        refine Yields.bind (m := 0) (byte_eq hrest) ?_ ?_
        · exact .ensure (decide_eq_true hlt) ⟨_, rfl, rfl⟩
        · exact (unbuffered_ensure _ fun _ _ h => h.malformed _).bind fun _ => .pure _
      · cases h
  | i32 | p32 => exact hsleb 32 (by decide) h
  | i64 | p64 => exact hsleb 64 (by decide) h
  | f64 =>
    dsimp only at h ⊢
    split at h
    · next hlength =>
      cases h
      refine ⟨by decide, by decide, hlength, ?_⟩
      exact (yields_realBits hlength hrest).map _
    · cases h

/-- A value that does not decode although its bytes are there is refused by the checked read. -/
theorem windowValue_none (h : windowValue types w.bigEndian id bytes = none)
    (hlength : 10 ≤ bytes.length) (hrest : w.rest = bytes ++ more) :
    ∃ e w', scalar types id w = (.error e, w') := by
  unfold windowValue at h
  unfold scalar
  split at h
  · next htype => rw [htype]; exact ⟨_, w, rfl⟩
  next storage literals wkt htype =>
  rw [htype]
  have hsleb : ∀ bits, groups bits ≤ 10 →
      (decodeSleb bits bytes).map (fun field => (Scalar.integer field.1, field.2)) = none →
      ∃ e w', (do
        let value ← sleb bits
        pure (Scalar.integer value) : Read Scalar) w = (.error e, w') := by
    intro bits hbits h
    obtain ⟨e, w', hrun⟩ := sliceLeb_none (Option.map_eq_none_iff.1 h) (.inl (by omega)) hrest
    exact ⟨e, w', Decoder.bind_of_error hrun⟩
  cases storage with
  | b2 | e8 =>
    dsimp only at h ⊢
    cases bytes with
    | nil => cases hlength
    | cons b bytes =>
      dsimp only at h
      split at h
      · cases h
      · next hlt =>
        obtain ⟨w', hbyte, -⟩ := byte_eq (w := w) hrest
        refine ⟨malformed "body enum ordinal exceeds base literals" w', w', ?_⟩
        rw [Decoder.bind_of_ok hbyte, decide_eq_false hlt]
        rfl
  | i32 | p32 => exact hsleb 32 (by decide) h
  | i64 | p64 => exact hsleb 64 (by decide) h
  | f64 =>
    dsimp only at h
    rw [if_pos (by omega)] at h
    cases h

variable {active : Active} {rank : Nat}

/-- A record of the window is the record that the checked reads give. -/
theorem windowField_some {next width length : Nat} {value : Scalar}
    (h : windowField types active w.bigEndian rank bytes = some (next, id, width, value, length))
    (hrest : w.rest = bytes ++ more) :
    0 < length ∧ length ≤ bytes.length ∧
      Yields (cycleRecord types active rank) w (some (next, id, w.offset + width, value))
        length := by
  unfold windowField at h
  split at h
  · cases h
  next delta width' hdelta =>
  split at h
  · cases h
  next hzero =>
  split at h
  · cases h
  next hfits =>
  split at h
  · cases h
  next id' type hactive =>
  split at h
  · cases h
  next value' length' hvalue =>
  cases h
  obtain ⟨-, -, hle, huleb⟩ := windowUleb_some hdelta hrest
  have hdrop : (w.skip width).rest = bytes.drop width ++ more := by
    rw [skip_rest, hrest, List.drop_append_of_le_length hle]
  obtain ⟨hpos, -, hle', hscalar⟩ := windowValue_some (w := w.skip width) hvalue hdrop
  rw [List.length_drop] at hle'
  refine ⟨by omega, by omega, ?_⟩
  have hrecord := (hscalar.map fun value => some (rank + delta, id, w.offset + width, value))
  refine huleb.bind ?_ (.ite (.pure _) ?_)
  · rw [if_neg hzero, hactive]
    exact .ensure (decide_eq_true (by omega)) (.look Wire.offset hrecord)
  · refine (unbuffered_ensure _ fun _ _ h => h.malformed _).bind fun _ => ?_
    rw [hactive]
    exact unbuffered_offset.bind fun _ => (unbuffered_scalar _ _).bind fun _ => .pure _

/-- A record that the window leaves out although its bytes are there is the end of the list, or is
refused by the checked reads. -/
theorem windowField_none (h : windowField types active w.bigEndian rank bytes = none)
    (hlength : windowRecord ≤ bytes.length) (hrest : w.rest = bytes ++ more) :
    (∃ w', cycleRecord types active rank w = (.ok none, w')) ∨
      ∃ e w', cycleRecord types active rank w = (.error e, w') := by
  unfold windowRecord at hlength
  unfold windowField at h
  unfold cycleRecord
  split at h
  · next hdelta =>
    obtain ⟨e, w', hrun⟩ := windowUleb_none hdelta (by omega) hrest
    exact .inr ⟨e, w', Decoder.bind_of_error hrun⟩
  next delta width hdelta =>
  obtain ⟨-, hfive, hle, w', hrun, hsame⟩ := windowUleb_some hdelta hrest
  rw [Decoder.bind_of_ok hrun]
  split at h
  · next hzero => rw [if_pos hzero]; exact .inl ⟨w', rfl⟩
  next hzero =>
  rw [if_neg hzero]
  split at h
  · next hfits =>
    refine .inr ⟨malformed "cycle scalar rank overflow" w', w', ?_⟩
    rw [decide_eq_false (by omega)]
    rfl
  next hfits =>
  rw [decide_eq_true (by omega)]
  split at h
  · exact .inr ⟨_, w', rfl⟩
  next id type hactive =>
  split at h
  · next hvalue =>
    have hdrop : w'.rest = bytes.drop width ++ more := by
      rw [hsame.rest, skip_rest, hrest, List.drop_append_of_le_length hle]
    have horder : w.bigEndian = w'.bigEndian := by
      have := congrArg Wire.bigEndian hsame.symm
      exact this
    rw [horder] at hvalue
    obtain ⟨e, v, hscalar⟩ := windowValue_none hvalue (by rw [List.length_drop]; omega) hdrop
    have hrecord := Decoder.bind_of_error
      (f := fun value => pure (some (rank + delta, id, w'.offset, value))) hscalar
    exact .inr ⟨e, v, hrecord⟩
  · cases h

end

/-! ## Steps of walks that differ in their buffers -/

/-- Walks that differ in the buffers of their wires only. -/
def Walk.Same (w w' : Walk) : Prop :=
  Wire.Same w.wire w'.wire ∧ w.clock = w'.clock ∧ w.footer = w'.footer ∧ w.phase = w'.phase

theorem Walk.Same.refl (w : Walk) : w.Same w := ⟨rfl, rfl, rfl, rfl⟩

/-- Steps that hand over the same events and lead to walks, or to ends, that differ in their buffers
only. -/
inductive Agree : List Emission × Outcome Walk Walked → List Emission × Outcome Walk Walked → Prop
  | next {out : List Emission} {w w' : Walk} : w.Same w' → Agree (out, .next w) (out, .next w')
  | stop {out : List Emission} {r : Except Error (Option TimeSpan)} {wire wire' : Wire} :
      Wire.Same wire wire' → Agree (out, .stop (r, wire)) (out, .stop (r, wire'))

section
variable {w w' : Walk}

/-- An emission carries the position of the walk, which is the same in both. -/
theorem Walk.Same.emit (h : w.Same w') (event : Event) : w.emit event = w'.emit event := by
  obtain ⟨hwire, hclock, -, -⟩ := h
  have hoffset : w.wire.offset = w'.wire.offset := by
    have := congrArg Wire.offset hwire
    exact this
  rw [Walk.emit, Walk.emit, hclock, hoffset]

/-- What follows an unbuffered read. -/
theorem Walk.Same.after {α : Type} {x : Read α} (hx : Unbuffered x) (h : w.Same w')
    {next next' : α → Walk → List Emission × Outcome Walk Walked}
    (hnext : ∀ a (v v' : Walk), v.Same v' → v.clock = w.clock → v.footer = w.footer →
      Agree (next a v) (next' a v')) :
    Agree (w.after x next) (w'.after x next') := by
  obtain ⟨hwire, hclock, hfooter, hphase⟩ := h
  obtain ⟨hresult, hrest⟩ := hx w.wire w'.wire hwire
  unfold Walk.after
  rcases hrun : x w.wire with ⟨r, v⟩
  rcases hrun' : x w'.wire with ⟨r', v'⟩
  rw [hrun, hrun'] at hresult hrest
  dsimp only at hresult hrest
  subst hresult
  cases r with
  | error e => exact .stop hrest
  | ok a => exact hnext a _ _ ⟨hrest, hclock, hfooter, hphase⟩ rfl rfl

/-- Two walks with the same input end alike. -/
theorem Walk.Same.finish (h : w.Same w') (events : List Event) :
    Agree (w.finish events) (w'.finish events) := by
  unfold Walk.finish
  rw [List.map_congr_left fun event _ => h.emit event, h.2.1]
  exact .stop h.1

/-- They enter a snapshot or a cycle alike. -/
theorem Walk.Same.enter (h : w.Same w') (stop : Nat) (time : Int) (phase : Phase) :
    Agree (w.enter stop time phase) (w'.enter stop time phase) := by
  unfold Walk.enter
  rw [h.2.1]
  cases w'.clock.enter time stop with
  | refused => rw [h.1.malformed]; exact .stop h.1
  | ended ticks => exact h.finish _
  | entered ticks clock =>
    dsimp only
    rw [List.map_congr_left fun time _ => h.emit (.tick time)]
    exact .next ⟨h.1, rfl, h.2.2.1, rfl⟩

/-- They take a step in a cycle list alike. -/
theorem Walk.Same.cycleStep (h : w.Same w') (b : Body) (time : Int) (rank : Nat) :
    Agree (Ghw.cycleStep b w time rank) (Ghw.cycleStep b w' time rank) := by
  refine h.after (unbuffered_cycleRecord _ _ _) fun record v v' hv _ _ => ?_
  cases record with
  | none =>
    dsimp only
    rw [hv.emit]
    exact .next ⟨hv.1, hv.2.1, hv.2.2.1, rfl⟩
  | some record =>
    dsimp only
    rw [hv.emit]
    exact .next ⟨hv.1, hv.2.1, hv.2.2.1, rfl⟩

/-- A step without the window does not see the buffer. -/
theorem walkStep_same (b : Body) (h : w.Same w') :
    Agree (walkStep b false w) (walkStep b false w') := by
  unfold walkStep
  rw [← h.2.2.2]
  cases hphase : w.phase with
  | «section» =>
    dsimp only
    rw [← h.2.2.1]
    refine h.after (unbuffered_readSection _) fun kind v v' hv hclock hfooter => ?_
    cases kind with
    | none =>
      dsimp only
      rw [← hv.2.1, ← hv.2.2.1]
      exact hv.finish _
    | some kind =>
      cases kind with
      | snapshot =>
        exact hv.after (unbuffered_zeros.bind fun _ => unbuffered_i64) fun time u u' hu _ _ =>
          hu.enter _ _ _
      | cycle => exact hv.after unbuffered_i64 fun time u u' hu _ _ => hu.enter _ _ _
      | directory =>
        dsimp only
        rw [← hv.2.1, List.map_congr_left fun time _ => hv.emit (.tick time)]
        exact .next ⟨hv.1, rfl, rfl, rfl⟩
      | tailer =>
        dsimp only
        rw [← hv.2.1, ← hv.2.2.1, List.map_congr_left fun time _ => hv.emit (.tick time)]
        exact .next ⟨hv.1, rfl, rfl, rfl⟩
  | snapshot time rank =>
    dsimp only
    cases b.active[rank]? with
    | none =>
      refine h.after (unbuffered_marker _) fun _ v v' hv _ _ => ?_
      rw [hv.emit]
      exact .next ⟨hv.1, hv.2.1, hv.2.2.1, rfl⟩
    | some entry =>
      refine h.after (unbuffered_scalar _ _) fun value v v' hv _ _ => ?_
      have hoffset : w.wire.offset = w'.wire.offset := by
        have := congrArg Wire.offset h.1
        exact this
      rw [hv.emit, hoffset]
      exact .next ⟨hv.1, hv.2.1, hv.2.2.1, rfl⟩
  | cycle time rank => exact h.cycleStep b time rank
  | increment time =>
    refine h.after (unbuffered_sleb 64) fun delta v v' hv _ _ => ?_
    split
    · exact hv.after (unbuffered_marker _) fun _ u u' hu _ _ =>
        .next ⟨hu.1, hu.2.1, hu.2.2.1, rfl⟩
    split
    · rw [hv.1.malformed]; exact .stop hv.1
    split
    · rw [hv.1.malformed]; exact .stop hv.1
    · exact hv.enter _ _ _
  | directory =>
    exact h.after unbuffered_readDirectory fun _ v v' hv _ _ => .next ⟨hv.1, hv.2.1, hv.2.2.1, rfl⟩
  | tailer => exact h.after unbuffered_readTailer fun _ v v' hv _ _ => hv.finish _

theorem Walk.Same.symm (h : w.Same w') : w'.Same w :=
  ⟨h.1.symm, h.2.1.symm, h.2.2.1.symm, h.2.2.2.symm⟩

theorem Walk.Same.trans {w'' : Walk} (h : w.Same w') (h' : w'.Same w'') : w.Same w'' :=
  ⟨h.1.trans h'.1, h.2.1.trans h'.2.1, h.2.2.1.trans h'.2.2.1, h.2.2.2.trans h'.2.2.2⟩

/-- Steps that agree with a third one agree. -/
theorem Agree.trans {p q r : List Emission × Outcome Walk Walked} (h : Agree p q) (h' : Agree q r) :
    Agree p r := by
  cases h with
  | next h => cases h' with | next h' => exact .next (h.trans h')
  | stop h => cases h' with | stop h' => exact .stop (h.trans h')

/-- A step agrees with itself. -/
theorem Agree.refl (p : List Emission × Outcome Walk Walked) : Agree p p := by
  obtain ⟨out, w | ⟨r, wire⟩⟩ := p
  · exact .next (.refl w)
  · exact .stop rfl

/-- Steps without the window do not see the buffer. -/
theorem steps_same {b : Body} {u : Walk} {out : List Emission}
    (hsteps : Steps (walkStep b false) w out u) (h : w.Same w') :
    ∃ u', Steps (walkStep b false) w' out u' ∧ u.Same u' := by
  induction hsteps generalizing w' with
  | refl => exact ⟨w', .refl w', h⟩
  | @head s s' t emitted out hs _ ih =>
    have hagree := walkStep_same b h
    rw [hs] at hagree
    rcases hs' : walkStep b false w' with ⟨emitted', o⟩
    rw [hs'] at hagree
    cases hagree with
    | next hsame =>
      obtain ⟨u', hsteps', hu⟩ := ih hsame
      exact ⟨u', .head hs' hsteps', hu⟩

/-! ## The window as steps -/

/-- The records of the window are those of as many one-field steps, up to the position and the rank
where it stops. -/
theorem window_steps {b : Body} {time : Int} {bytes more : List UInt8}
    (hrest : w.wire.rest = bytes ++ more) (fuel : Nat) {consumed rank : Nat}
    (hconsumed : consumed ≤ bytes.length) {u : Walk}
    (hu : u.Same { w with wire := w.wire.skip consumed, phase := .cycle time rank })
    {out : List Emission} {ends next : Nat}
    (h : window b w.wire.bigEndian time w.clock.span w.wire.offset bytes fuel consumed rank =
      (out, ends, next)) :
    consumed ≤ ends ∧ ends ≤ bytes.length ∧ (ends = consumed → out = [] ∧ next = rank) ∧
      ∃ v, Steps (walkStep b false) u out v ∧
        v.Same { w with wire := w.wire.skip ends, phase := .cycle time next } := by
  induction fuel generalizing consumed rank u out with
  | zero =>
    cases h
    exact ⟨Nat.le_refl _, hconsumed, fun _ => ⟨rfl, rfl⟩, u, .refl u, hu⟩
  | succ fuel ih =>
    unfold window at h
    split at h
    · cases h
      exact ⟨Nat.le_refl _, hconsumed, fun _ => ⟨rfl, rfl⟩, u, .refl u, hu⟩
    split at h
    · cases h
      exact ⟨Nat.le_refl _, hconsumed, fun _ => ⟨rfl, rfl⟩, u, .refl u, hu⟩
    next next' id width value length hfield =>
    have hdrop : (w.wire.skip consumed).rest = bytes.drop consumed ++ more := by
      rw [skip_rest, hrest, List.drop_append_of_le_length hconsumed]
    obtain ⟨hpos, hle, hyields⟩ := windowField_some (w := w.wire.skip consumed) hfield hdrop
    rw [List.length_drop] at hle
    obtain ⟨wire, hrun, hwire⟩ := hyields.same (unbuffered_cycleRecord _ _ _) hu.1
    have hmoved : Wire.Same wire (w.wire.skip (consumed + length)) := by
      rw [← skip_skip]
      exact hwire.trans (hu.1.skip length)
    rcases hwindow : window b w.wire.bigEndian time w.clock.span w.wire.offset bytes fuel
      (consumed + length) next' with ⟨later, ends', next''⟩
    rw [hwindow] at h
    cases h
    have hstep : walkStep b false u =
        ([⟨.scalar ⟨id, next' - 1, time.toNat, w.wire.offset + (consumed + width), value, true,
          noRoute⟩, w.wire.offset + (consumed + length), w.clock.span⟩],
          .next { u with wire := wire, phase := .cycle time next' }) := by
      have hoffset : wire.offset = w.wire.offset + (consumed + length) := by
        have := congrArg Wire.offset hmoved
        exact this
      have hpayload : (w.wire.skip consumed).offset + width = w.wire.offset + (consumed + width) :=
        Nat.add_assoc ..
      unfold walkStep
      rw [hu.2.2.2]
      dsimp only
      unfold cycleStep Walk.after
      rw [if_neg (by decide), hrun]
      dsimp only
      rw [Walk.emit, hoffset, hu.2.1, hpayload]
    have hnext : Walk.Same { u with wire := wire, phase := .cycle time next' }
        { w with wire := w.wire.skip (consumed + length), phase := .cycle time next' } :=
      ⟨hmoved, hu.2.1, hu.2.2.1, rfl⟩
    obtain ⟨hge, hbound, -, v, hsteps, hv⟩ := ih (by omega) hnext hwindow
    exact ⟨by omega, hbound, fun heq => by omega, v, .head hstep hsteps, hv⟩

/-- Where the window stops, too few bytes are left for any record, or the next record is not one
that the window decodes. -/
theorem window_stops {b : Body} {time : Int} {bytes more : List UInt8}
    (hrest : w.wire.rest = bytes ++ more) (fuel : Nat) {consumed rank : Nat}
    (hconsumed : consumed ≤ bytes.length) (hfuel : bytes.length - consumed ≤ fuel)
    {out : List Emission} {ends next : Nat}
    (h : window b w.wire.bigEndian time w.clock.span w.wire.offset bytes fuel consumed rank =
      (out, ends, next)) :
    bytes.length - ends < windowRecord ∨
      windowField b.types b.active w.wire.bigEndian next (bytes.drop ends) = none := by
  induction fuel generalizing consumed rank out with
  | zero =>
    cases h
    exact .inl (by unfold windowRecord; omega)
  | succ fuel ih =>
    unfold window at h
    split at h
    · next hshort => cases h; exact .inl hshort
    split at h
    · next hnone => cases h; exact .inr hnone
    next next' id width value length hfield =>
    have hdrop : (w.wire.skip consumed).rest = bytes.drop consumed ++ more := by
      rw [skip_rest, hrest, List.drop_append_of_le_length hconsumed]
    obtain ⟨hpos, hle, -⟩ := windowField_some (w := w.wire.skip consumed) hfield hdrop
    rw [List.length_drop] at hle
    rcases hwindow : window b w.wire.bigEndian time w.clock.span w.wire.offset bytes fuel
      (consumed + length) next' with ⟨later, ends', next''⟩
    rw [hwindow] at h
    cases h
    exact ih (by omega) (by omega) hwindow

/-- A turn of the bulk loop is one step without the window, or several. -/
theorem bulkStep_cases (b : Body) {time : Int} {rank : Nat} (hphase : w.phase = .cycle time rank) :
    Agree (bulkStep b w time rank) (cycleStep b w time rank) ∨
      ∃ out v u, bulkStep b w time rank = (out, .next v) ∧ Steps (walkStep b false) w out u ∧
        u.Same v ∧ v.clock = w.clock ∧ v.wire.rest.length < w.wire.rest.length := by
  by_cases hrest : w.wire.rest = []
  · obtain ⟨wire, hfill, hsame⟩ := fillBuf_end hrest
    refine .inl ?_
    cases hfault : w.wire.fault with
    | some message =>
      rw [hfault] at hfill
      have hrecord : cycleRecord b.types b.active rank w.wire = (.error (.io message), wire) :=
        Decoder.bind_of_error (Decoder.bind_of_error (Decoder.bind_of_error hfill))
      unfold bulkStep cycleStep Walk.after
      rw [hfill, hrecord]
      exact .refl _
    | none =>
      rw [hfault] at hfill
      unfold bulkStep Walk.after
      rw [hfill]
      have hw : Walk.Same { w with wire := wire } w := ⟨hsame, rfl, rfl, rfl⟩
      exact hw.cycleStep b time rank
  · obtain ⟨bytes, more, wire, hfill, hsame, hne, happend⟩ := fillBuf_window hrest
    rcases hwindow : window b w.wire.bigEndian time w.clock.span w.wire.offset bytes bytes.length 0
      rank with ⟨out, ends, next⟩
    have hstart : w.Same { w with wire := w.wire.skip 0, phase := .cycle time rank } :=
      ⟨rfl, rfl, rfl, hphase⟩
    obtain ⟨-, hbound, hzero, u, hsteps, hu⟩ :=
      window_steps happend bytes.length (Nat.zero_le _) hstart hwindow
    obtain ⟨wire', hconsume, hmoved⟩ := consume_eq ends wire
    have hwire : Wire.Same wire' (w.wire.skip ends) := hmoved.trans (hsame.skip ends)
    have hbulk : bulkStep b w time rank =
        if ends ≠ 0 then (out, .next { w with wire := wire', phase := .cycle time next })
        else cycleStep b { w with wire := wire' } time rank := by
      unfold bulkStep Walk.after
      rw [hfill]
      dsimp only
      rw [hwindow, hconsume]
    rw [hbulk]
    split
    · next hends =>
      refine .inr ⟨out, _, u, rfl, hsteps,
        ⟨hu.1.trans hwire.symm, hu.2.1, hu.2.2.1, hu.2.2.2⟩, rfl, ?_⟩
      have hlength : bytes.length ≤ w.wire.rest.length := by rw [happend]; simp
      rw [hwire.rest, skip_rest, List.length_drop]
      omega
    · next hends =>
      rw [not_not] at hends
      subst hends
      have hw : Walk.Same { w with wire := wire' } w := ⟨hwire, rfl, rfl, rfl⟩
      exact .inl (hw.cycleStep b time rank)

/-- A step of the walk is one step without the window, or several. -/
theorem walkStep_cases (b : Body) (w : Walk) :
    Agree (walkStep b true w) (walkStep b false w) ∨
      ∃ out v u, walkStep b true w = (out, .next v) ∧ Steps (walkStep b false) w out u ∧
        u.Same v ∧ v.clock = w.clock ∧ v.wire.rest.length < w.wire.rest.length := by
  cases hphase : w.phase with
  | cycle time rank =>
    have hbulk : walkStep b true w = bulkStep b w time rank := by
      unfold walkStep; rw [hphase]; rfl
    have hsingle : walkStep b false w = cycleStep b w time rank := by
      unfold walkStep; rw [hphase]; rfl
    rw [hbulk, hsingle]
    exact bulkStep_cases b hphase
  | «section» | snapshot | increment | directory | tailer =>
    have heq : walkStep b true w = walkStep b false w := by
      unfold walkStep
      rw [hphase]
    rw [heq]
    exact .inl (.refl _)

/-- Steps of the walk are steps without the window. -/
theorem steps_unbuffered {b : Body} {t : Walk} {out : List Emission}
    (h : Steps (walkStep b true) w out t) :
    ∃ u, Steps (walkStep b false) w out u ∧ u.Same t := by
  induction h with
  | refl s => exact ⟨s, .refl s, .refl s⟩
  | @head s s' t emitted out hs _ ih =>
    obtain ⟨u, hsteps, hu⟩ := ih
    rcases walkStep_cases b s with hagree | ⟨out', v, u', hstep, hsteps', hu', -, -⟩
    · rw [hs] at hagree
      rcases hs' : walkStep b false s with ⟨emitted', o⟩
      rw [hs'] at hagree
      cases hagree with
      | next hsame =>
        obtain ⟨u', hsteps', hu'⟩ := steps_same hsteps hsame
        exact ⟨u', .head hs' hsteps', hu'.symm.trans hu⟩
    · rw [hs] at hstep
      cases hstep
      obtain ⟨u'', hsteps'', hu''⟩ := steps_same hsteps hu'.symm
      exact ⟨u'', hsteps'.trans hsteps'', hu''.symm.trans hu⟩

/-- A run of the walk is a run without the window, on every wire that differs in the buffer. -/
theorem runs_unbuffered {b : Body} {out : List Emission} {r : Walked}
    (h : Runs (walkStep b true) w out r) (hw : w.Same w') :
    ∃ r', Runs (walkStep b false) w' out r' ∧ r.1 = r'.1 ∧ Wire.Same r.2 r'.2 := by
  obtain ⟨t, pre, post, rfl, hsteps, hstop⟩ := h.last
  obtain ⟨u, hsteps', hu⟩ := steps_unbuffered hsteps
  obtain ⟨u', hsteps'', hu'⟩ := steps_same hsteps' hw
  rcases walkStep_cases b t with hagree | ⟨out', v, u'', hstep, -⟩
  · have hagree' := hagree.trans (walkStep_same b (hu.symm.trans hu'))
    rw [hstop] at hagree'
    rcases hs' : walkStep b false u' with ⟨emitted', o⟩
    rw [hs'] at hagree'
    cases hagree' with
    | stop hsame => exact ⟨_, hsteps''.runs (.stop hs'), rfl, hsame⟩
  · rw [hstop] at hstep
    cases hstep

end

/-! ## Every step reads -/

/-- The next state, if any, has fewer bytes to read than a number. -/
def Within (n : Nat) (p : List Emission × Outcome Walk Walked) : Prop :=
  ∀ v, p.2 = .next v → v.wire.rest.length < n

section
variable {w : Walk} {n k : Nat}

/-- A walk that ends has no next state. -/
theorem within_stop (out : List Emission) (r : Walked) : Within n (out, .stop r) := by
  intro v h
  cases h

/-- A step that goes on with less input stays within a bound on it. -/
theorem within_next {v : Walk} (out : List Emission) (h : v.wire.rest.length < n) :
    Within n (out, .next v) := by
  intro u hu
  cases hu
  exact h

/-- A read before a step takes some of the input, and the step takes the rest of the bound. -/
theorem Walk.after_within {α : Type} {x : Read α} (hx : Moves k x)
    (hn : w.wire.rest.length < n + k) {next : α → Walk → List Emission × Outcome Walk Walked}
    (hnext : ∀ a v, v.wire.rest.length < n → Within n (next a v)) : Within n (w.after x next) := by
  obtain ⟨m, hm, hsame, hk⟩ := hx w.wire
  unfold Walk.after
  rcases hrun : x w.wire with ⟨e | a, wire⟩
  · exact within_stop _ _
  · rw [hrun] at hsame hk
    have := hk a rfl
    refine hnext a _ ?_
    show wire.rest.length < n
    rw [hsame.rest, skip_rest, List.length_drop]
    omega

/-- Entering a snapshot or a cycle takes no input. -/
theorem Walk.enter_within (hn : w.wire.rest.length < n) (stop : Nat) (time : Int) (phase : Phase) :
    Within n (w.enter stop time phase) := by
  unfold Walk.enter
  cases w.clock.enter time stop with
  | refused => exact within_stop _ _
  | ended ticks => exact within_stop _ _
  | entered ticks clock => exact within_next _ hn

/-- A step in a cycle list takes input. -/
theorem cycleStep_within (b : Body) (time : Int) (rank : Nat) :
    Within w.wire.rest.length (cycleStep b w time rank) := by
  refine Walk.after_within (moves_cycleRecord _ _ _) (by omega) fun record v hv => ?_
  cases record with
  | none => exact within_next _ hv
  | some record => exact within_next _ hv

/-- Every step reads a byte at least. -/
theorem walkStep_within (b : Body) (bulk : Bool) (w : Walk) :
    Within w.wire.rest.length (walkStep b bulk w) := by
  cases hphase : w.phase with
  | cycle time rank =>
    unfold walkStep
    rw [hphase]
    cases bulk with
    | false => exact cycleStep_within b time rank
    | true =>
      rcases bulkStep_cases b hphase with hagree | ⟨out, v, u, hstep, -, -, -, hlt⟩
      · intro v hv
        rcases hbulk : bulkStep b w time rank with ⟨out, o⟩
        have hv : (bulkStep b w time rank).2 = .next v := hv
        rw [hbulk] at hv hagree
        obtain rfl : o = .next v := hv
        rcases hsingle : cycleStep b w time rank with ⟨out', o'⟩
        rw [hsingle] at hagree
        cases hagree with
        | next hsame =>
          rw [hsame.1.rest]
          exact cycleStep_within b time rank _ (by rw [hsingle])
      · intro v' hv'
        have hv' : (bulkStep b w time rank).2 = .next v' := hv'
        rw [hstep] at hv'
        cases hv'
        exact hlt
  | «section» =>
    unfold walkStep Walk.after
    rw [hphase]
    dsimp only
    rcases hrun : readSection w.footer w.wire with ⟨e | _ | kind, wire⟩
    · exact within_stop _ _
    · exact within_stop _ _
    obtain ⟨m, hm, hfour, hsame⟩ := readSection_moves hrun
    have hlt : wire.rest.length < w.wire.rest.length := by
      rw [hsame.rest, skip_rest, List.length_drop]
      omega
    have hstay : ({ w with wire := wire } : Walk).wire.rest.length < w.wire.rest.length + 0 := hlt
    cases kind with
    | snapshot =>
      exact Walk.after_within (moves_zeros.zero.first fun _ => moves_i64.zero) hstay
        fun time v hv => Walk.enter_within hv _ _ _
    | cycle =>
      exact Walk.after_within moves_i64.zero hstay fun time v hv => Walk.enter_within hv _ _ _
    | directory => exact within_next _ hlt
    | tailer => exact within_next _ hlt
  | snapshot time rank =>
    unfold walkStep
    rw [hphase]
    dsimp only
    cases b.active[rank]? with
    | none =>
      exact Walk.after_within (moves_marker _) (by omega) fun _ v hv =>
        within_next _ hv
    | some entry =>
      refine Walk.after_within (moves_scalar _ _) (by omega) fun value v hv =>
        within_next _ hv
  | increment time =>
    unfold walkStep
    rw [hphase]
    refine Walk.after_within (moves_sleb 64) (by omega) fun delta v hv => ?_
    split
    · refine Walk.after_within (moves_marker _).zero hv fun _ u hu =>
        within_next _ hu
    split
    · exact within_stop _ _
    split
    · exact within_stop _ _
    · exact Walk.enter_within hv _ _ _
  | directory =>
    unfold walkStep
    rw [hphase]
    refine Walk.after_within moves_readDirectory (by omega) fun _ v hv =>
        within_next _ hv
  | tailer =>
    unfold walkStep
    rw [hphase]
    exact Walk.after_within moves_readTailer (by omega) fun _ v hv => within_stop _ _

/-- The bytes left decrease with every step. -/
theorem walkStep_decreases (b : Body) (bulk : Bool) (w : Walk) (out : List Emission) (v : Walk)
    (h : walkStep b bulk w = (out, .next v)) : v.wire.rest.length < w.wire.rest.length :=
  walkStep_within b bulk w v (by rw [h])

/-- The walk ends. -/
theorem walk_total (b : Body) (bulk : Bool) (w : Walk) :
    ∃ out r, Runs (walkStep b bulk) w out r :=
  Runs.total (fun w : Walk => w.wire.rest.length) (walkStep_decreases b bulk) w

end

/-! ## The walk and its buffer -/

section
variable {σ B : Type}

/-- What the walk returns after its visitor went through the events of a run. -/
def returned (r : Walked) :
    σ × ControlFlow (B × Nat × Option TimeSpan) →
      σ × Except Error (ControlFlow B × Option TimeSpan) × Nat
  | (c, .break (value, offset, span)) => (c, .ok (.break value, span), offset)
  | (c, .continue) => (c, r.1.map fun span => (.continue, span), r.2.offset)

/-- The walk hands over the events of its run. -/
theorem walk_eq {b : Body} {bulk : Bool} {wire : Wire} {out : List Emission} {r : Walked}
    (h : Runs (walkStep b bulk) (Walk.start wire) out r)
    (visitor : σ → Event → σ × ControlFlow B) (c : σ) :
    walk b bulk visitor c wire = returned r (visit (onEvent visitor) c out) := by
  have hdrive := drive_eq_visit (onEvent visitor) (fun w : Walk => w.wire.rest.length)
    (walkStep_decreases b bulk) h c (wire.rest.length + 1) (Nat.lt_succ_self _)
  unfold walk
  rw [hdrive]
  rcases visit (onEvent visitor) c out with ⟨c', _ | ⟨value, offset, span⟩⟩
  · obtain ⟨_ | _, wire⟩ := r <;> rfl
  · rfl

/-- What a turn of the bulk loop finds in a window. -/
def windowOf (b : Body) (w : Walk) (time : Int) (rank : Nat) (bytes : List UInt8) :
    List Emission × Nat × Nat :=
  window b w.wire.bigEndian time w.clock.span w.wire.offset bytes bytes.length 0 rank

/-- A turn of the bulk loop stays inside its window, covers just the records that it reports, which
the one-field steps report too, and stops where no record may fit any more or the one-field step
finds the end of the list or a malformed record. -/
structure WindowExact (b : Body) (w : Walk) (time : Int) (rank : Nat) (bytes : List UInt8) :
    Prop where
  inside : (windowOf b w time rank bytes).2.1 ≤ bytes.length
  reported : ∃ v, Steps (walkStep b false) w (windowOf b w time rank bytes).1 v ∧
    v.Same { w with wire := w.wire.skip (windowOf b w time rank bytes).2.1,
                    phase := .cycle time (windowOf b w time rank bytes).2.2 }
  stops : bytes.length - (windowOf b w time rank bytes).2.1 < windowRecord ∨
    ∀ u : Walk, u.Same { w with wire := w.wire.skip (windowOf b w time rank bytes).2.1,
                                phase := .cycle time (windowOf b w time rank bytes).2.2 } →
      (∃ e v, walkStep b false u = ([e], .next v) ∧ e.event = .listEnd time.toNat) ∨
        ∃ e wire, walkStep b false u = ([], .stop (.error e, wire))

/-- The window is exact. -/
theorem windowExact (b : Body) {w : Walk} {time : Int} {rank : Nat} {bytes more : List UInt8}
    (hphase : w.phase = .cycle time rank) (hrest : w.wire.rest = bytes ++ more) :
    WindowExact b w time rank bytes := by
  rcases hwindow : windowOf b w time rank bytes with ⟨out, ends, next⟩
  have hstart : w.Same { w with wire := w.wire.skip 0, phase := .cycle time rank } :=
    ⟨rfl, rfl, rfl, hphase⟩
  obtain ⟨-, hbound, -, v, hsteps, hv⟩ :=
    window_steps hrest bytes.length (Nat.zero_le _) hstart hwindow
  refine ⟨by rw [hwindow]; exact hbound, by rw [hwindow]; exact ⟨v, hsteps, hv⟩, ?_⟩
  rw [hwindow]
  rcases window_stops hrest bytes.length (Nat.zero_le _)
    (Nat.sub_le _ _) hwindow with hshort | hnone
  · exact .inl hshort
  by_cases hshort : bytes.length - ends < windowRecord
  · exact .inl hshort
  refine .inr fun u hu => ?_
  have hdrop : u.wire.rest = bytes.drop ends ++ more := by
    rw [hu.1.rest, skip_rest, hrest, List.drop_append_of_le_length hbound]
  have horder : w.wire.bigEndian = u.wire.bigEndian := by
    have := congrArg Wire.bigEndian hu.1.symm
    exact this
  rw [horder] at hnone
  have hstep : walkStep b false u = cycleStep b u time next := by
    unfold walkStep
    rw [hu.2.2.2]
    rfl
  rw [hstep]
  unfold cycleStep Walk.after
  rcases windowField_none hnone (by rw [List.length_drop]; omega) hdrop with
    ⟨wire, hrecord⟩ | ⟨e, wire, hrecord⟩
  · rw [hrecord]; exact .inl ⟨_, _, rfl, rfl⟩
  · rw [hrecord]; exact .inr ⟨e, wire, rfl⟩

/-- **The walk does not depend on buffering.** On every wire, whatever its buffer and the reads that
fill it, the walk with the window gives the events, the outcome and the final offset of the walk
that reads one field at a time from an unbuffered wire, and every window is exact. -/
theorem walk_unbuffered (b : Body) (wire : Wire) (visitor : σ → Event → σ × ControlFlow B) (c : σ) :
    walk b true visitor c wire = walk b false visitor c wire.plain ∧
      ∀ (clock : Clock) (footer : Bool) (time : Int) (rank n : Nat),
        WindowExact b ⟨wire, clock, footer, .cycle time rank⟩ time rank (wire.rest.take n) := by
  constructor
  · obtain ⟨out, r, hrun⟩ := walk_total b true (Walk.start wire)
    have hstart : (Walk.start wire).Same (Walk.start wire.plain) := ⟨rfl, rfl, rfl, rfl⟩
    obtain ⟨r', hrun', hresult, hwire⟩ := runs_unbuffered hrun hstart
    have hoffset : r.2.offset = r'.2.offset := by
      have := congrArg Wire.offset hwire
      exact this
    rw [walk_eq hrun, walk_eq hrun']
    rcases visit (onEvent visitor) c out with ⟨c', _ | ⟨value, offset, span⟩⟩
    · rw [returned, returned, hresult, hoffset]
    · rfl
  · intro clock footer time rank n
    exact windowExact b rfl (List.take_append_drop n _).symm

end

end Ondas.Ghw
