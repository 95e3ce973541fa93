import Ondas.Vcd.Validate

/-!
# String values

A string value writes each byte as it stands or as an escape. `Escape` says what an escape stands
for: a name, up to three octal digits, as many as there are, or two hexadecimal ones. `Spells` says
which texts a payload spells; `decodeString` answers exactly the text, fails on a payload that
spells none, and accepts the same payloads whether it builds the text or not
(`decodeString_spells`).
-/

namespace Ondas.Vcd

/-! ## Spellings -/

/-- An octal digit. -/
def isOctal (b : UInt8) : Bool := 48 ≤ b && b ≤ 55

/-- The number of octal digits. -/
def octalValue (digits : List UInt8) : Nat := digits.foldl (fun n d => n * 8 + (d.toNat - 48)) 0

/-- The bytes with an escape of their own: the letter and the byte it stands for. -/
def namedEscapes : List (UInt8 × UInt8) :=
  [(97, 7), (98, 8), (102, 12), (110, 10), (114, 13), (116, 9), (118, 11), (92, 92),
  (34, 34), (39, 39),
    (63, 63)]

/-- Octal digits end after three of them, or where no other follows. -/
def OctalEnds (digits rest : List UInt8) : Prop :=
  digits.length = 3 ∨ ∀ d ∈ rest.head?, isOctal d = false

/-- What an escape stands for, after its backslash: a byte, with what follows the escape. -/
inductive Escape : List UInt8 → UInt8 → List UInt8 → Prop where
  | named {letter b : UInt8} {rest : List UInt8} :
    (letter, b) ∈ namedEscapes → Escape (letter :: rest) b rest
  | octal {d : UInt8} {digits rest : List UInt8} : (∀ d' ∈ d :: digits, isOctal d' = true) →
    (d :: digits).length ≤ 3 → OctalEnds (d :: digits) rest → octalValue (d :: digits) < 256 →
    Escape (d :: digits ++ rest) (UInt8.ofNat (octalValue (d :: digits))) rest
  | hex {high low : UInt8} {h l : Nat} {rest : List UInt8} :
    hexDigit high = some h → hexDigit low = some l →
    Escape (120 :: high :: low :: rest) (UInt8.ofNat (h * 16 + l)) rest

/-- The ASCII texts that a payload spells. -/
inductive Spells : List UInt8 → List UInt8 → Prop where
  | nil : Spells [] []
  | literal {b : UInt8} {rest text : List UInt8} :
    b ≠ 92 → b < 128 → Spells rest text → Spells (b :: rest) (b :: text)
  | escaped {b : UInt8} {payload rest text : List UInt8} :
    Escape payload b rest → b < 128 → Spells rest text → Spells (92 :: payload) (b :: text)

/-! ## Escapes -/

section
variable {count octet : Nat} {digits rest rest' : List UInt8} {b : UInt8}

/-- Octal digits are read up to the last one there may be. -/
theorem octalTail_append (hdigits : ∀ d ∈ digits, isOctal d = true)
    (hlength : digits.length ≤ count)
    (hends : digits.length = count ∨ ∀ d ∈ rest.head?, isOctal d = false) :
    octalTail count octet (digits ++ rest) =
      (digits.foldl (fun n d => n * 8 + (d.toNat - 48)) octet, rest) := by
  induction count generalizing octet digits with
  | zero =>
    obtain rfl := List.length_eq_zero_iff.1 (Nat.le_zero.1 hlength)
    rfl
  | succ count ih =>
    cases digits with
    | nil =>
      have hnext := hends.resolve_left nofun
      cases rest with
      | nil => rfl
      | cons d rest =>
        have hd := hnext d (by simp)
        rw [isOctal] at hd
        rw [List.nil_append, octalTail, hd]
        rfl
    | cons d digits =>
      have hd := hdigits d (.head _)
      rw [isOctal] at hd
      rw [List.cons_append, octalTail, if_pos hd,
        ih (fun d' hd' => hdigits d' (.tail _ hd')) (Nat.le_of_succ_le_succ hlength)
          (hends.imp Nat.succ.inj id)]
      rfl

/-- What is read is octal digits, and after them no other one. -/
theorem octalTail_split (count octet : Nat) (rest : List UInt8) :
    ∃ digits rest', rest = digits ++ rest' ∧ (∀ d ∈ digits, isOctal d = true) ∧
      digits.length ≤ count ∧ (digits.length = count ∨ ∀ d ∈ rest'.head?, isOctal d = false) := by
  induction count generalizing octet rest with
  | zero => exact ⟨[], rest, rfl, nofun, le_rfl, .inl rfl⟩
  | succ count ih =>
    cases rest with
    | nil => exact ⟨[], [], rfl, nofun, Nat.zero_le _, .inr nofun⟩
    | cons d rest =>
      cases hd : isOctal d with
      | false => exact ⟨[], d :: rest, rfl, nofun, Nat.zero_le _, .inr (by simpa using hd)⟩
      | true =>
        obtain ⟨digits, rest', rfl, hdigits, hlength, hends⟩ := ih octet rest
        refine ⟨d :: digits, rest', rfl, List.forall_mem_cons.2 ⟨hd, hdigits⟩,
          Nat.succ_le_succ hlength, hends.imp (congrArg Nat.succ) id⟩

/-- An octal digit starts no other escape. -/
theorem escape_octal {d : UInt8} (hd : isOctal d = true) (rest : List UInt8) :
    escape (d :: rest) =
      match octalTail 2 (d.toNat - 48) rest with
      | (octet, rest') =>
        if octet < 256 then .ok (UInt8.ofNat octet, rest')
        else .error (malformed "string octal escape overflow") := by
  rw [isOctal] at hd
  have hne : ∀ letter : UInt8, (48 ≤ letter && letter ≤ 55) = false → d ≠ letter := by
    rintro letter hletter rfl
    rw [hd] at hletter
    cases hletter
  unfold escape
  dsimp only
  rw [if_neg (hne 97 rfl), if_neg (hne 98 rfl), if_neg (hne 102 rfl), if_neg (hne 110 rfl),
    if_neg (hne 114 rfl), if_neg (hne 116 rfl), if_neg (hne 118 rfl),
    if_neg (by simp [hne 92 rfl, hne 34 rfl, hne 39 rfl, hne 63 rfl]), if_pos hd]

/-- An `x` starts an escape of two hexadecimal digits. -/
theorem escape_hex (high low : UInt8) (rest : List UInt8) :
    escape (120 :: high :: low :: rest) =
      match hexDigit high, hexDigit low with
      | some h, some l => .ok (UInt8.ofNat (h * 16 + l), rest)
      | _, _ => .error (malformed "invalid hex escape") := rfl

/-- **What `decode_string` reads after a backslash** is an escape. -/
theorem escape_eq_ok {payload : List UInt8} :
    escape payload = .ok (b, rest) ↔ Escape payload b rest := by
  constructor
  · intro h
    cases payload with
    | nil => cases h
    | cons letter tail =>
      by_cases hoctal : isOctal letter = true
      · obtain ⟨digits, rest', rfl, hdigits, hlength, hends⟩ := octalTail_split 2 0 tail
        rw [escape_octal hoctal, octalTail_append hdigits hlength hends] at h
        dsimp only at h
        have hvalue : octalValue (letter :: digits) =
            digits.foldl (fun n d => n * 8 + (d.toNat - 48)) (letter.toNat - 48) := by
          rw [octalValue, List.foldl_cons, Nat.zero_mul, Nat.zero_add]
        rw [← hvalue] at h
        split at h
        next hfits =>
          cases h
          exact .octal (List.forall_mem_cons.2 ⟨hoctal, hdigits⟩) (Nat.succ_le_succ hlength)
            (hends.imp (congrArg Nat.succ) id) hfits
        next => cases h
      · rw [isOctal] at hoctal
        unfold escape at h
        dsimp only at h
        split at h
        next hletter => cases h; exact .named (hletter ▸ by decide)
        split at h
        next hletter => cases h; exact .named (hletter ▸ by decide)
        split at h
        next hletter => cases h; exact .named (hletter ▸ by decide)
        split at h
        next hletter => cases h; exact .named (hletter ▸ by decide)
        split at h
        next hletter => cases h; exact .named (hletter ▸ by decide)
        split at h
        next hletter => cases h; exact .named (hletter ▸ by decide)
        split at h
        next hletter => cases h; exact .named (hletter ▸ by decide)
        split at h
        next hletter =>
          cases h
          simp only [Bool.or_eq_true, decide_eq_true_eq] at hletter
          rcases hletter with ((rfl | rfl) | rfl) | rfl <;> exact .named (by decide)
        split at h
        next hletter =>
          subst hletter
          split at h
          next high low rest' =>
            split at h
            next a c hhigh hlow =>
              cases h
              exact .hex hhigh hlow
            next => cases h
          next => cases h
        next => cases h
  · intro h
    cases h with
    | named hmem =>
      simp only [namedEscapes, List.mem_cons, List.not_mem_nil, or_false, Prod.mk.injEq] at hmem
      rcases hmem with ⟨rfl, rfl⟩ | ⟨rfl, rfl⟩ | ⟨rfl, rfl⟩ | ⟨rfl, rfl⟩ | ⟨rfl, rfl⟩ | ⟨rfl, rfl⟩ |
        ⟨rfl, rfl⟩ | ⟨rfl, rfl⟩ | ⟨rfl, rfl⟩ | ⟨rfl, rfl⟩ | ⟨rfl, rfl⟩ <;> rfl
    | octal hdigits hlength hends hfits =>
      obtain ⟨hfirst, hdigits⟩ := List.forall_mem_cons.1 hdigits
      rw [List.cons_append, escape_octal hfirst, octalTail_append hdigits
        (Nat.le_of_succ_le_succ hlength) (hends.imp Nat.succ.inj id)]
      dsimp only
      rw [octalValue, List.foldl_cons, Nat.zero_mul, Nat.zero_add] at hfits ⊢
      rw [if_pos hfits]
    | hex hhigh hlow =>
      rw [escape_hex, hhigh, hlow]

/-- An escape takes a byte at least. -/
theorem Escape.length_lt {payload : List UInt8} (h : Escape payload b rest) :
    rest.length < payload.length := by
  cases h <;> simp only [List.length_append, List.length_cons] <;> omega

end

/-! ## Texts -/

/-- The loop appends the text that the payload spells. -/
theorem decodeLoop_spells {time fuel : Nat} {payload output text : List UInt8}
    (hfuel : payload.length ≤ fuel) :
    decodeLoop true time fuel payload output = .ok text ↔
      ∃ more, text = output ++ more ∧ Spells payload more := by
  induction fuel generalizing payload output with
  | zero =>
    obtain rfl := List.length_eq_zero_iff.1 (Nat.le_zero.1 hfuel)
    rw [decodeLoop]
    refine ⟨fun h => ⟨[], by simpa using (Except.ok.inj h).symm, .nil⟩, ?_⟩
    rintro ⟨more, rfl, hspells⟩
    cases hspells
    rw [List.append_nil]
  | succ fuel ih =>
    cases payload with
    | nil =>
      rw [decodeLoop]
      refine ⟨fun h => ⟨[], by simpa using (Except.ok.inj h).symm, .nil⟩, ?_⟩
      rintro ⟨more, rfl, hspells⟩
      cases hspells
      rw [List.append_nil]
    | cons byte rest =>
      have hrest : rest.length ≤ fuel := Nat.le_of_succ_le_succ hfuel
      rw [decodeLoop]
      constructor
      · intro h
        split at h
        · cases h
        next b rest' hbyte =>
        split at h
        next hascii =>
          rw [if_pos rfl] at h
          split at hbyte
          next hslash =>
            subst hslash
            have hescape := escape_eq_ok.1 hbyte
            obtain ⟨more, rfl, hspells⟩ := (ih (hescape.length_lt.le.trans hrest)).1 h
            exact ⟨b :: more, by simp, .escaped hescape hascii hspells⟩
          next hplain =>
            cases hbyte
            obtain ⟨more, rfl, hspells⟩ := (ih hrest).1 h
            exact ⟨byte :: more, by simp, .literal hplain hascii hspells⟩
        next => cases h
      · rintro ⟨more, rfl, hspells⟩
        cases hspells with
        | literal hplain hascii hspells =>
          rw [if_neg hplain]
          dsimp only
          rw [if_pos hascii, if_pos rfl, ih hrest]
          exact ⟨_, by simp, hspells⟩
        | escaped hescape hascii hspells =>
          rw [if_pos rfl, escape_eq_ok.2 hescape]
          dsimp only
          rw [if_pos hascii, if_pos rfl, ih (hescape.length_lt.le.trans hrest)]
          exact ⟨_, by simp, hspells⟩

/-- **String values decode their escapes.** The text of a payload is the ASCII text that it spells;
a payload that spells none is an error; and a payload is accepted without building its text when it
is accepted with it. -/
theorem decodeString_spells (payload : List UInt8) (time : Nat) :
    (∀ text, decodeString payload true time = .ok text ↔ Spells payload text) ∧
      ((∃ text, decodeString payload false time = .ok text) ↔
        ∃ text, decodeString payload true time = .ok text) := by
  refine ⟨fun text => ?_, fun ⟨_, h⟩ => decodeLoop_accepts true [] h,
    fun ⟨_, h⟩ => decodeLoop_accepts false [] h⟩
  rw [decodeString, decodeLoop_spells le_rfl]
  simp

example : decodeString [97, 92, 92, 92, 55, 56] true 0 = .ok [97, 92, 7, 56] := by decide

end Ondas.Vcd
