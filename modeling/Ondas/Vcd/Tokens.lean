import Ondas.Value

/-!
# Tokens of a VCD body

`Tokens` is the byte source of the VCD reader: the bytes still to come, the absolute offset of the
next one, and the I/O failure that reading past them meets, if any. `nextInto` takes one word (a
maximal run of bytes that are not ASCII whitespace) and `text` the content of a block up to its
`$end`. The body loop consumes one `Item` at a time; `item` is its lexical half.

Two token sources that agree on a prefix behave alike there. `Tokens.Grows t u` says that `u` has
the bytes of `t` and possibly more, and that no word of `t` can continue into the extra bytes: `t`
fails at its end, or its last byte is whitespace. A word, a text and an item read from `t` are then
read from `u` too (`nextInto_grows`, `text_grows`, `item_grows`).
-/

namespace Ondas.Vcd

/-- `malformed`: a VCD format error. -/
def malformed (message : String) : Error :=
  .malformed .vcd "vcd-native" message

/-- The byte source. `fault` is the message of the I/O error met once `input` is used up. -/
structure Tokens where
  input : List UInt8
  offset : Nat
  fault : Option String
  deriving Repr

/-- A byte that belongs to a word. -/
def isWord (b : UInt8) : Bool := !isAsciiWhitespace b

/-- `String::from_utf8` accepts the bytes: each sequence has the length its first byte announces,
its continuation bytes, no overlong form, no surrogate and no code point past U+10FFFF. -/
def validUtf8 : List UInt8 → Bool
  | [] => true
  | a :: rest =>
    if a < 0x80 then validUtf8 rest
    else match rest with
      | b :: rest =>
        if 0xc2 ≤ a && a < 0xe0 then continuation b && validUtf8 rest
        else match rest with
          | c :: rest =>
            if 0xe0 ≤ a && a < 0xf0 then
              continuation b && continuation c && (a != 0xe0 || 0xa0 ≤ b) &&
                (a != 0xed || b < 0xa0) && validUtf8 rest
            else match rest with
              | d :: rest =>
                0xf0 ≤ a && a < 0xf5 && continuation b && continuation c && continuation d &&
                  (a != 0xf0 || 0x90 ≤ b) && (a != 0xf4 || b < 0x90) && validUtf8 rest
              | [] => false
          | [] => false
      | [] => false
where
  /-- A byte `10xxxxxx`. -/
  continuation (b : UInt8) : Bool := 0x80 ≤ b && b < 0xc0

/-- `utf8`. -/
def utf8 (bytes : List UInt8) : Except Error (List UInt8) :=
  if validUtf8 bytes then .ok bytes
  else .error (malformed "invalid UTF-8 declaration or metadata")

/-- `<[u8]>::trim_ascii`. -/
def trimAscii (bytes : List UInt8) : List UInt8 :=
  (bytes.dropWhile isAsciiWhitespace).rdropWhile isAsciiWhitespace

namespace Tokens

/-- `Tokens::error`. -/
def error (t : Tokens) (message : String) : Error :=
  malformed s!"byte {t.offset}: {message}"

/-- `Tokens::take`: the run of whitespace, or of other bytes, at the current position. -/
def take (whitespace : Bool) (t : Tokens) : Except Error (List UInt8 × Tokens) :=
  let run := t.input.takeWhile fun b => isAsciiWhitespace b == whitespace
  let rest := t.input.dropWhile fun b => isAsciiWhitespace b == whitespace
  match rest, t.fault with
  | [], some message => .error (.io message)
  | _, _ => .ok (run, { t with input := rest, offset := t.offset + run.length })

/-- `Tokens::next_into`: the next word, or `none` at the end of the input. -/
def nextInto (t : Tokens) : Except Error (Option (List UInt8) × Tokens) :=
  let body := t.input.dropWhile isAsciiWhitespace
  let word := body.takeWhile isWord
  let rest := body.dropWhile isWord
  let t' := { t with input := rest, offset := t.offset + (t.input.length - rest.length) }
  match rest, t.fault with
  | [], some message => .error (.io message)
  | _, _ => .ok (if word.isEmpty then none else some word, t')

/-- `Tokens::required`. -/
def required (t : Tokens) : Except Error (List UInt8 × Tokens) :=
  match t.nextInto with
  | .error e => .error e
  | .ok (none, t') => .error (t'.error "unexpected EOF")
  | .ok (some word, t') => .ok (word, t')

/-- The loop of `Tokens::text`, with the text read so far. The fuel bounds the words to come. -/
def textLoop : Nat → Tokens → List UInt8 → Except Error (List UInt8 × Tokens)
  | 0, t, _ => .error (t.error "unexpected EOF")
  | fuel + 1, t, text =>
    match t.take true with
    | .error e => .error e
    | .ok (gap, t') =>
      match t'.required with
      | .error e => .error e
      | .ok (word, t'') =>
        if word = ascii "$end" then .ok (text ++ gap, t'')
        else textLoop fuel t'' (text ++ gap ++ word)

/-- `Tokens::text`: the trimmed bytes up to the next word `$end`. -/
def text (t : Tokens) : Except Error (List UInt8 × Tokens) :=
  match textLoop (t.input.length + 1) t [] with
  | .error e => .error e
  | .ok (bytes, t') =>
    match utf8 (trimAscii bytes) with
    | .error e => .error e
    | .ok text => .ok (text, t')

end Tokens

/-- One turn of the body loop, as read: a timestamp, a `$` command, a comment outside a dump block,
or a value change with its payload and identifier code. -/
inductive Item where
  | stamp (digits : List UInt8)
  | command (word : List UInt8)
  | comment (text : List UInt8)
  | value (letter : UInt8) (payload id : List UInt8)
  deriving DecidableEq, Repr

/-- A value whose payload is followed by a separate identifier code: `b`, `r` and `s` changes. -/
def hasSeparateId (letter : UInt8) : Bool :=
  letter == 98 || letter == 114 || letter == 115

/-- The reads of one turn of `walk_inner`, up to the point where the word is acted on. A comment
inside a dump block is an error of the turn, so its text is not read. -/
def Tokens.item (block : Bool) (t : Tokens) : Except Error (Option Item × Tokens) :=
  match t.nextInto with
  | .error e => .error e
  | .ok (none, t') => .ok (none, t')
  | .ok (some word, t') =>
    let letter := word.headD 0
    if letter = 35 then .ok (some (.stamp word.tail), t')
    else if letter = 36 then
      if word = ascii "$comment" && !block then
        match t'.text with
        | .error e => .error e
        | .ok (text, t'') => .ok (some (.comment text), t'')
      else .ok (some (.command word), t')
    else
      let letter := toAsciiLowercase letter
      if hasSeparateId letter then
        match t'.nextInto with
        | .error e => .error e
        | .ok (none, t'') => .error (t''.error "unexpected EOF")
        | .ok (some id, t'') => .ok (some (.value letter word.tail id), t'')
      else .ok (some (.value letter (word.take 1) word.tail), t')

/-! ## The shape of one word -/

namespace Tokens

/-- What a word is followed by: whitespace, or the end of an input that does not fail there. -/
def WordEnd (rest : List UInt8) (fault : Option String) : Prop :=
  (rest = [] ∧ fault = none) ∨ ∃ b tail, rest = b :: tail ∧ isAsciiWhitespace b = true

/-- A gap of whitespace, a word and its end are read as that word. -/
theorem nextInto_of_shape {t : Tokens} {gap word rest : List UInt8}
    (hinput : t.input = gap ++ (word ++ rest)) (hgap : ∀ b ∈ gap, isAsciiWhitespace b = true)
    (hword : ∀ b ∈ word, isAsciiWhitespace b = false) (hne : word ≠ [])
    (hend : WordEnd rest t.fault) :
    t.nextInto = .ok (some word,
      { t with input := rest, offset := t.offset + (gap.length + word.length) }) := by
  obtain ⟨c, word', rfl⟩ := List.exists_cons_of_ne_nil hne
  have hc : isAsciiWhitespace c = false := hword c (by simp)
  have hbody : t.input.dropWhile isAsciiWhitespace = (c :: word') ++ rest := by
    rw [hinput, List.dropWhile_append_of_pos hgap, List.cons_append, List.dropWhile_cons_of_neg]
    simp [hc]
  have hpos : ∀ b ∈ c :: word', isWord b = true := fun b hb => by simp [isWord, hword b hb]
  have hrest : rest.dropWhile isWord = rest ∧ rest.takeWhile isWord = [] := by
    rcases hend with ⟨rfl, -⟩ | ⟨b, tail, rfl, hb⟩
    · simp
    · simp [isWord, hb]
  have htake : (t.input.dropWhile isAsciiWhitespace).takeWhile isWord = c :: word' := by
    rw [hbody, List.takeWhile_append_of_pos hpos, hrest.2, List.append_nil]
  have hdrop : (t.input.dropWhile isAsciiWhitespace).dropWhile isWord = rest := by
    rw [hbody, List.dropWhile_append_of_pos hpos, hrest.1]
  have hlen : t.input.length - rest.length = gap.length + (c :: word').length := by
    rw [hinput]; simp only [List.length_append]; omega
  unfold nextInto
  simp only [htake, hdrop, hlen]
  rcases hend with ⟨rfl, hfault⟩ | ⟨b, tail, rfl, -⟩
  · rw [hfault]; rfl
  · rfl

/-- A word is read from its shape. -/
theorem shape_of_nextInto {t u : Tokens} {word : List UInt8}
    (h : t.nextInto = .ok (some word, u)) :
    ∃ gap, t.input = gap ++ (word ++ u.input) ∧ (∀ b ∈ gap, isAsciiWhitespace b = true) ∧
      (∀ b ∈ word, isAsciiWhitespace b = false) ∧ word ≠ [] ∧ WordEnd u.input t.fault ∧
      u = { t with input := u.input, offset := t.offset + (gap.length + word.length) } := by
  set body := t.input.dropWhile isAsciiWhitespace with hbody
  have hsplit : t.input = t.input.takeWhile isAsciiWhitespace ++ body :=
    List.takeWhile_append_dropWhile.symm
  have hbsplit : body = body.takeWhile isWord ++ body.dropWhile isWord :=
    List.takeWhile_append_dropWhile.symm
  have hend : ∀ b tail, body.dropWhile isWord = b :: tail → isAsciiWhitespace b = true := by
    intro b tail hb
    have := List.head?_dropWhile_not isWord body
    rw [hb] at this
    simpa [isWord] using this
  have hlen : t.input.length - (body.dropWhile isWord).length =
      (t.input.takeWhile isAsciiWhitespace).length + (body.takeWhile isWord).length := by
    have h1 := congrArg List.length hsplit
    have h2 := congrArg List.length hbsplit
    simp only [List.length_append] at h1 h2
    omega
  unfold nextInto at h
  simp only [← hbody] at h
  split at h
  · cases h
  · next hno =>
    simp only [Except.ok.injEq, Prod.mk.injEq] at h
    obtain ⟨hw, rfl⟩ := h
    split at hw
    · cases hw
    · next hne =>
      cases hw
      refine ⟨t.input.takeWhile isAsciiWhitespace, ?_, fun b hb => List.mem_takeWhile_imp hb,
        fun b hb => by simpa [isWord] using List.mem_takeWhile_imp hb, by simpa using hne, ?_, ?_⟩
      · exact hsplit.trans (congrArg _ hbsplit)
      · cases hr : body.dropWhile isWord with
        | nil =>
          cases hf : t.fault with
          | none => exact .inl ⟨rfl, rfl⟩
          | some message => exact absurd hf (hno message hr)
        | cons b tail => exact .inr ⟨b, tail, rfl, hend b tail hr⟩
      · simp only [hlen]

/-- No word is left: everything still to come is whitespace, and the input does not fail. -/
theorem nextInto_none {t u : Tokens} (h : t.nextInto = .ok (none, u)) :
    (∀ b ∈ t.input, isAsciiWhitespace b = true) ∧ t.fault = none ∧
      u = { t with input := [], offset := t.offset + t.input.length } := by
  unfold nextInto at h
  dsimp only at h
  split at h
  · cases h
  · next hno =>
    simp only [Except.ok.injEq, Prod.mk.injEq] at h
    obtain ⟨hw, rfl⟩ := h
    split at hw
    · next hempty =>
      have hbody : t.input.dropWhile isAsciiWhitespace = [] := by
        cases hb : t.input.dropWhile isAsciiWhitespace with
        | nil => rfl
        | cons b tail =>
          have hhead := List.head?_dropWhile_not isAsciiWhitespace t.input
          rw [hb] at hhead hempty
          have : isWord b = true := by simpa [isWord] using hhead
          simp [this] at hempty
      refine ⟨List.dropWhile_eq_nil_iff.1 hbody, ?_, ?_⟩
      · cases hf : t.fault with
        | none => rfl
        | some message => exact absurd hf (hno message (by rw [hbody]; rfl))
      · rw [hbody]; simp
    · cases hw

/-- Reading a word fails only as the input does. -/
theorem nextInto_error {t : Tokens} {e : Error} (h : t.nextInto = .error e) :
    ∃ message, t.fault = some message ∧ e = .io message := by
  unfold nextInto at h
  dsimp only at h
  split at h
  · next hf => cases h; exact ⟨_, hf, rfl⟩
  · cases h

/-- A source at which only whitespace is left has no next word. -/
theorem nextInto_of_blank {t : Tokens} (h : ∀ b ∈ t.input, isAsciiWhitespace b = true)
    (hf : t.fault = none) :
    t.nextInto = .ok (none, { t with input := [], offset := t.offset + t.input.length }) := by
  have hbody : t.input.dropWhile isAsciiWhitespace = [] := List.dropWhile_eq_nil_iff.2 h
  unfold nextInto
  simp [hbody, hf]

/-- Leading whitespace does not matter to the next word. -/
theorem nextInto_skip {t : Tokens} {gap rest : List UInt8} (hinput : t.input = gap ++ rest)
    (hgap : ∀ b ∈ gap, isAsciiWhitespace b = true) :
    t.nextInto = nextInto { t with input := rest, offset := t.offset + gap.length } := by
  have hbody : t.input.dropWhile isAsciiWhitespace = rest.dropWhile isAsciiWhitespace := by
    rw [hinput, List.dropWhile_append_of_pos hgap]
  have hle : ((rest.dropWhile isAsciiWhitespace).dropWhile isWord).length ≤ rest.length :=
    (List.dropWhile_sublist _).length_le.trans (List.dropWhile_sublist _).length_le
  have hlen : t.input.length - ((rest.dropWhile isAsciiWhitespace).dropWhile isWord).length =
      gap.length + (rest.length -
      ((rest.dropWhile isAsciiWhitespace).dropWhile isWord).length) := by
    rw [hinput, List.length_append]; omega
  unfold nextInto
  simp only [hbody, hlen, Nat.add_assoc]

/-! ## Advancing -/

/-- `u` is `t` some bytes later. -/
def Advances (t u : Tokens) : Prop :=
  ∃ used, t.input = used ++ u.input ∧ u.offset = t.offset + used.length ∧ u.fault = t.fault

theorem Advances.refl (t : Tokens) : Advances t t := ⟨[], rfl, rfl, rfl⟩

/-- Tokens advance along a way and further. -/
theorem Advances.trans {t u v : Tokens} (h : Advances t u) (h' : Advances u v) : Advances t v := by
  obtain ⟨used, h1, h2, h3⟩ := h
  obtain ⟨used', h1', h2', h3'⟩ := h'
  refine ⟨used ++ used', by rw [h1, h1', List.append_assoc], ?_, h3'.trans h3⟩
  rw [h2', h2, List.length_append, Nat.add_assoc]

theorem Advances.length_le {t u : Tokens} (h : Advances t u) : u.input.length ≤ t.input.length := by
  obtain ⟨used, h1, -, -⟩ := h
  rw [h1, List.length_append]; omega

/-- Reading a word advances, and a found word takes at least one byte. -/
theorem nextInto_advances {t u : Tokens} {o : Option (List UInt8)} (h : t.nextInto = .ok (o, u)) :
    Advances t u ∧ (o.isSome = true → u.input.length < t.input.length) := by
  cases o with
  | none =>
    obtain ⟨-, -, rfl⟩ := nextInto_none h
    exact ⟨⟨t.input, by simp, rfl, rfl⟩, nofun⟩
  | some word =>
    obtain ⟨gap, hin, -, -, hne, -, hu⟩ := shape_of_nextInto h
    have hpos := List.length_pos_iff.2 hne
    refine ⟨⟨gap ++ word, by rw [List.append_assoc]; exact hin, ?_, ?_⟩, fun _ => ?_⟩
    · rw [hu, List.length_append]
    · rw [hu]
    · rw [hin]; simp only [List.length_append]; omega

/-- A word that must be there is the next one. -/
theorem required_eq {t u : Tokens} {word : List UInt8} :
    t.required = .ok (word, u) ↔ t.nextInto = .ok (some word, u) := by
  unfold required
  rcases t.nextInto with e | ⟨_ | w, v⟩ <;> simp

/-- Skipping whitespace advances over exactly the gap read. -/
theorem take_eq {t u : Tokens} {gap : List UInt8} (h : t.take true = .ok (gap, u)) :
    t.input = gap ++ u.input ∧ (∀ b ∈ gap, isAsciiWhitespace b = true) ∧
      u = { t with input := u.input, offset := t.offset + gap.length } ∧
      (∀ b tail, u.input = b :: tail → isAsciiWhitespace b = false) := by
  unfold take at h
  dsimp only at h
  split at h
  · cases h
  · simp only [Except.ok.injEq, Prod.mk.injEq] at h
    obtain ⟨rfl, rfl⟩ := h
    refine ⟨List.takeWhile_append_dropWhile.symm, fun b hb => ?_, rfl, fun b tail hb => ?_⟩
    · simpa using List.mem_takeWhile_imp hb
    · have := List.head?_dropWhile_not (fun b => isAsciiWhitespace b == true) t.input
      simp only at hb
      rw [hb] at this
      simpa using this

/-- Skipping whitespace stops at the first other byte. -/
theorem take_of_shape {t : Tokens} {gap tail : List UInt8} {b : UInt8}
    (hinput : t.input = gap ++ b :: tail) (hgap : ∀ b ∈ gap, isAsciiWhitespace b = true)
    (hb : isAsciiWhitespace b = false) :
    t.take true = .ok (gap, { t with input := b :: tail, offset := t.offset + gap.length }) := by
  have hpos : ∀ b ∈ gap, (isAsciiWhitespace b == true) = true := fun b hb => by simp [hgap b hb]
  unfold take
  rw [hinput, List.takeWhile_append_of_pos hpos, List.dropWhile_append_of_pos hpos]
  simp [hb]

/-- Reading a text advances. -/
theorem textLoop_advances {fuel : Nat} {t u : Tokens} {text bytes : List UInt8}
    (h : textLoop fuel t text = .ok (bytes, u)) : Advances t u := by
  induction fuel generalizing t text with
  | zero => cases h
  | succ fuel ih =>
    simp only [textLoop] at h
    split at h
    · cases h
    · next gap t' htake =>
      have hgap : Advances t t' := by
        obtain ⟨h1, -, h2, -⟩ := take_eq htake
        exact ⟨gap, h1, by rw [h2], by rw [h2]⟩
      split at h
      · cases h
      · next word t'' hreq =>
        have hword := (nextInto_advances (required_eq.1 hreq)).1
        split at h
        · cases h; exact hgap.trans hword
        · exact hgap.trans (hword.trans (ih h))

/-- A text is what stands before its end, trimmed and decoded. -/
theorem text_eq {t u : Tokens} {bytes : List UInt8} (h : t.text = .ok (bytes, u)) :
    ∃ raw, textLoop (t.input.length + 1) t [] = .ok (raw, u) ∧
    utf8 (trimAscii raw) = .ok bytes := by
  unfold text at h
  split at h
  · cases h
  · next raw t' hloop =>
    split at h
    · cases h
    · next hutf => cases h; exact ⟨raw, hloop, hutf⟩

/-- Reading an item advances, and a found item takes at least one byte. -/
theorem item_advances {t u : Tokens} {block : Bool} {o : Option Item}
    (h : t.item block = .ok (o, u)) :
    Advances t u ∧ (o.isSome = true → u.input.length < t.input.length) := by
  unfold item at h
  split at h
  · cases h
  · next t' hnext => cases h; exact ⟨(nextInto_advances hnext).1, nofun⟩
  · next word t' hnext =>
    obtain ⟨hadv, hlt⟩ := nextInto_advances hnext
    replace hlt := hlt rfl
    -- Whatever the word is, what is read after it only advances further.
    suffices hrest : Advances t' u from
      ⟨hadv.trans hrest, fun _ => lt_of_le_of_lt hrest.length_le hlt⟩
    dsimp only at h
    split at h
    · cases h; exact .refl _
    split at h
    · split at h
      · split at h
        · cases h
        · next text t'' htext =>
          cases h
          obtain ⟨raw, hloop, -⟩ := text_eq htext
          exact textLoop_advances hloop
      · cases h; exact .refl _
    · split at h
      · split at h
        · cases h
        · cases h
        · next hid => cases h; exact (nextInto_advances hid).1
      · cases h; exact .refl _

/-- There is no item only when there is no word. -/
theorem item_none {t t' : Tokens} {block : Bool} (h : t.item block = .ok (none, t')) :
    t.nextInto = .ok (none, t') := by
  unfold item at h
  split at h
  · cases h
  · next hnext => cases h; exact hnext
  · dsimp only at h
    split at h
    · cases h
    split at h
    · split at h
      · split at h <;> cases h
      · cases h
    · split at h
      · split at h <;> cases h
      · cases h

/-! ## Sources that agree on a prefix -/

/-- No word of `input` runs on into `rest`. -/
def Sealed (input rest : List UInt8) : Prop :=
  rest = [] ∨ input = [] ∨ ∃ b, input.getLast? = some b ∧ isAsciiWhitespace b = true

/-- `u` has the bytes of `t` and possibly more, and words of `t` end where they end in `u`. -/
def Grows (t u : Tokens) : Prop :=
  u.offset = t.offset ∧ u.fault = none ∧
    ∃ rest, u.input = t.input ++ rest ∧ (t.fault = none → Sealed t.input rest)

/-- A source that does not fail grows into itself. -/
theorem Grows.refl {t : Tokens} (h : t.fault = none) : Grows t t :=
  ⟨rfl, h, [], by simp, fun _ => .inl rfl⟩

/-- A sealed input is sealed after part of it is read. -/
theorem Sealed.suffix {used input rest : List UInt8} (h : Sealed (used ++ input) rest) :
    Sealed input rest := by
  rcases h with h | h | ⟨b, h, hb⟩
  · exact .inl h
  · exact .inr (.inl (List.append_eq_nil_iff.1 h).2)
  · cases input with
    | nil => exact .inr (.inl rfl)
    | cons c tail =>
      refine .inr (.inr ⟨b, ?_, hb⟩)
      rwa [List.getLast?_append_of_ne_nil _ (List.cons_ne_nil c tail)] at h

/-- What advances in `t` advances in a source that `t` grows into. -/
theorem Grows.advance {t u t' : Tokens} (h : Grows t u) (ht : Advances t t') :
    ∃ u', Advances u u' ∧ Grows t' u' ∧ ∃ rest, u.input = t.input ++ rest ∧
      u'.input = t'.input ++ rest := by
  obtain ⟨hoff, hfault, rest, hin, hseal⟩ := h
  obtain ⟨used, h1, h2, h3⟩ := ht
  refine ⟨⟨t'.input ++ rest, t'.offset, none⟩, ⟨used, ?_, ?_, ?_⟩, ⟨rfl, rfl, rest, rfl, ?_⟩, rest,
    hin, rfl⟩
  · rw [hin, h1, List.append_assoc]
  · rw [hoff, h2]
  · exact hfault.symm
  · intro hf
    have := hseal (h3 ▸ hf)
    rw [h1] at this
    exact this.suffix

/-- A word of `t` is the same word of a source that `t` grows into. -/
theorem nextInto_grows {t u t' : Tokens} {word : List UInt8} (h : Grows t u)
    (hnext : t.nextInto = .ok (some word, t')) :
    ∃ u', u.nextInto = .ok (some word, u') ∧ Grows t' u' := by
  obtain ⟨gap, hin, hgap, hword, hne, hend, ht'⟩ := shape_of_nextInto hnext
  obtain ⟨hoff, hfault, rest, hu, hseal⟩ := h
  have hend' : WordEnd (t'.input ++ rest) u.fault := by
    rcases hend with ⟨hnil, hf⟩ | ⟨b, tail, hb, hws⟩
    · -- The word runs to the end of `t`, so its last byte seals nothing: nothing follows.
      rcases hseal hf with hrest | hempty | ⟨b, hlast, hb⟩
      · exact .inl ⟨by simp [hnil, hrest], hfault⟩
      · rw [hin] at hempty; simp at hempty; exact absurd hempty.2.1 hne
      · exfalso
        rw [hin, hnil, List.append_nil, List.getLast?_append_of_ne_nil _ hne] at hlast
        rw [hword b (List.mem_of_getLast? hlast)] at hb
        cases hb
    · exact .inr ⟨b, tail ++ rest, by rw [hb]; rfl, hws⟩
  have hsplit : u.input = gap ++ (word ++ (t'.input ++ rest)) := by
    rw [hu, hin]; simp only [List.append_assoc]
  refine ⟨_, nextInto_of_shape hsplit hgap hword hne hend', ?_, hfault, rest, rfl, fun hf => ?_⟩
  · rw [ht', hoff]
  · have := hseal (by rw [ht'] at hf; exact hf)
    rw [hin, ← List.append_assoc] at this
    exact this.suffix

/-- The text loop reads from `t` what it reads from a source that `t` grows into. -/
theorem textLoop_grows {fuel fuel' : Nat} {t u t' : Tokens} {text bytes : List UInt8}
    (h : Grows t u) (hle : fuel ≤ fuel') (hloop : textLoop fuel t text = .ok (bytes, t')) :
    ∃ u', textLoop fuel' u text = .ok (bytes, u') ∧ Grows t' u' := by
  induction fuel generalizing fuel' t u text with
  | zero => cases hloop
  | succ fuel ih =>
    obtain ⟨fuel', rfl⟩ : ∃ n, fuel' = n + 1 := ⟨fuel' - 1, by omega⟩
    simp only [textLoop] at hloop
    split at hloop
    · cases hloop
    · next gap v htake =>
      obtain ⟨hin, hgap, hv, hhead⟩ := take_eq htake
      split at hloop
      · cases hloop
      · next word w hreq =>
        have hnext := required_eq.1 hreq
        obtain ⟨b, tail, hb⟩ : ∃ b tail, v.input = b :: tail := by
          obtain ⟨_, hvin, -, -, hne, -, -⟩ := shape_of_nextInto hnext
          rw [hvin]
          exact List.exists_cons_of_ne_nil (by simp [hne])
        obtain ⟨v', -, hgrow, rest, hu, hv'⟩ := h.advance ⟨gap, hin, by rw [hv], by rw [hv]⟩
        have htake' : u.take true = .ok (gap, v') := by
          have hb' := hhead b tail hb
          rw [take_of_shape (b := b)
            (show u.input = gap ++ b :: (tail ++ rest) by rw [hu, hin, hb]; simp)
            hgap hb']
          obtain ⟨hoff, hfault, -⟩ := hgrow
          obtain ⟨hoffu, hfaultu, -⟩ := h
          congr 2
          cases v'
          simp only [Tokens.mk.injEq] at hv' hoff hfault ⊢
          refine ⟨by rw [hv', hb]; rfl, ?_, by rw [hfault, hfaultu]⟩
          rw [hoff, hv, hoffu]
        obtain ⟨w', hnext', hgrow'⟩ := nextInto_grows hgrow hnext
        simp only [textLoop, htake', required_eq.2 hnext']
        split at hloop
        · next hend => cases hloop; rw [if_pos hend]; exact ⟨w', rfl, hgrow'⟩
        · next hend => rw [if_neg hend]; exact ih hgrow' (by omega) hloop

/-- A text read from `t` is read from a source that `t` grows into. -/
theorem text_grows {t u t' : Tokens} {bytes : List UInt8} (h : Grows t u)
    (htext : t.text = .ok (bytes, t')) : ∃ u', u.text = .ok (bytes, u') ∧ Grows t' u' := by
  obtain ⟨raw, hloop, hutf⟩ := text_eq htext
  have hle : t.input.length + 1 ≤ u.input.length + 1 := by
    obtain ⟨-, -, rest, hu, -⟩ := h
    rw [hu, List.length_append]; omega
  obtain ⟨u', hloop', hgrow⟩ := textLoop_grows h hle hloop
  exact ⟨u', by simp only [text, hloop', hutf], hgrow⟩

/-- An item read from `t` is read from a source that `t` grows into. -/
theorem item_grows {t u t' : Tokens} {block : Bool} {i : Item} (h : Grows t u)
    (hitem : t.item block = .ok (some i, t')) :
    ∃ u', u.item block = .ok (some i, u') ∧ Grows t' u' := by
  unfold item at hitem
  split at hitem
  · cases hitem
  · cases hitem
  · next word v hnext =>
    obtain ⟨v', hnext', hgrow⟩ := nextInto_grows h hnext
    simp only [item, hnext']
    dsimp only at hitem
    split at hitem
    · next hl => cases hitem; rw [if_pos hl]; exact ⟨v', rfl, hgrow⟩
    next hl =>
    rw [if_neg hl]
    split at hitem
    · next hl2 =>
      rw [if_pos hl2]
      split at hitem
      · next hc =>
        rw [if_pos hc]
        split at hitem
        · cases hitem
        · next htext =>
          cases hitem
          obtain ⟨u', htext', hgrow'⟩ := text_grows hgrow htext
          exact ⟨u', by rw [htext'], hgrow'⟩
      · next hc => cases hitem; rw [if_neg hc]; exact ⟨v', rfl, hgrow⟩
    · next hl2 =>
      rw [if_neg hl2]
      split at hitem
      · next hs =>
        rw [if_pos hs]
        split at hitem
        · cases hitem
        · cases hitem
        · next hid =>
          cases hitem
          obtain ⟨u', hid', hgrow'⟩ := nextInto_grows hgrow hid
          exact ⟨u', by rw [hid'], hgrow'⟩
      · next hs => cases hitem; rw [if_neg hs]; exact ⟨v', rfl, hgrow⟩

end Tokens
end Ondas.Vcd
