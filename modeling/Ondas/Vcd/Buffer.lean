import Ondas.Vcd.Tokens

/-!
# Buffered tokens

The input of a token source hands out its bytes in windows. `Buffered` has the windows still to
come, none of them empty, and the loops of `take` and `next_into` over them: a word or a run of
whitespace may go on in the next window. What they read does not depend on the windows
(`take_tokens`, `nextInto_tokens`, `text_tokens`): it is what `Tokens` reads from the bytes.

`Run` says what a word is, without the reader: a maximal run of bytes that are not whitespace.
`tokens_unbuffered` states what reading delivers in these terms.
-/

namespace Ondas.Vcd

/-- The input of a token source: its windows, the offset of the next byte, and the failure met once
they are used up. -/
structure Buffered where
  windows : List (List UInt8)
  nonempty : ∀ window ∈ windows, window ≠ []
  offset : Nat
  fault : Option String

namespace Buffered

/-- The bytes to come. -/
def tokens (b : Buffered) : Tokens := ⟨b.windows.flatten, b.offset, b.fault⟩

/-- `BufRead::fill_buf`: what is left of the current window. -/
def fillBuf (b : Buffered) : Except Error (List UInt8) :=
  match b.windows, b.fault with
  | window :: _, _ => .ok window
  | [], none => .ok []
  | [], some message => .error (.io message)

/-- `BufRead::consume`, with the offset that the callers count. -/
def consume (b : Buffered) (n : Nat) : Buffered :=
  match h : b.windows with
  | [] => b
  | window :: rest =>
    if hn : n < window.length then
      { b with
        windows := window.drop n :: rest
        nonempty := by
          intro w hw
          rcases List.mem_cons.1 hw with rfl | hw
          · simpa using hn
          · exact b.nonempty w (h ▸ List.mem_cons_of_mem _ hw)
        offset := b.offset + n }
    else
      { b with
        windows := rest
        nonempty := fun w hw => b.nonempty w (h ▸ List.mem_cons_of_mem _ hw)
        offset := b.offset + n }

/-- A whole window is consumed. -/
theorem windows_consume {b : Buffered} {bytes : List UInt8} {n : Nat} (h : b.fillBuf = .ok bytes)
    (hne : bytes ≠ []) (hn : bytes.length ≤ n) :
    (b.consume n).windows.length < b.windows.length := by
  unfold fillBuf at h
  split at h
  next window rest hwindows =>
    cases h
    unfold consume
    split
    next hnil => rw [hwindows] at hnil; cases hnil
    next window' rest' hcons =>
      rw [hwindows] at hcons
      cases hcons
      rw [dif_neg (Nat.not_lt.2 hn)]
      show rest.length < b.windows.length
      rw [hwindows]
      exact Nat.lt_succ_self _
  · cases h
    exact absurd rfl hne
  · cases h

/-- `Tokens::take`, with the bytes collected so far. -/
def take (whitespace : Bool) (b : Buffered) (output : List UInt8) :
    Except Error (List UInt8 × Buffered) :=
  match _h : b.fillBuf with
  | .error e => .error e
  | .ok bytes =>
    let n := (bytes.takeWhile fun c => isAsciiWhitespace c == whitespace).length
    let output := output ++ bytes.take n
    if _hdone : n < bytes.length ∨ bytes = [] then .ok (output, b.consume n)
    else take whitespace (b.consume n) output
termination_by b.windows.length
decreasing_by
  simp only [not_or, not_lt] at _hdone
  exact windows_consume _h _hdone.2 _hdone.1

/-- The loop of `Tokens::next_into`, with the word collected so far. -/
def nextLoop (b : Buffered) (word : List UInt8) :
    Except Error (Bool × List UInt8 × Buffered) :=
  match _h : b.fillBuf with
  | .error e => .error e
  | .ok bytes =>
    if _hempty : bytes = [] then .ok (!word.isEmpty, word, b)
    else
      let skip := if word.isEmpty then (bytes.takeWhile isAsciiWhitespace).length else 0
      let len := ((bytes.drop skip).takeWhile isWord).length
      let word := word ++ (bytes.drop skip).take len
      let consumed := skip + len
      if _hdone : consumed < bytes.length then .ok (true, word, b.consume consumed)
      else nextLoop (b.consume consumed) word
termination_by b.windows.length
decreasing_by exact windows_consume _h _hempty (Nat.le_of_not_lt _hdone)

/-- `Tokens::next_into`. -/
def nextInto (b : Buffered) : Except Error (Bool × List UInt8 × Buffered) := b.nextLoop []

/-- `Tokens::next`. -/
def next (b : Buffered) : Except Error (Option (List UInt8) × Buffered) :=
  match b.nextInto with
  | .error e => .error e
  | .ok (found, word, b) => .ok (if found then some word else none, b)

/-- `Tokens::required`. -/
def required (b : Buffered) : Except Error (List UInt8 × Buffered) :=
  match b.next with
  | .error e => .error e
  | .ok (none, b) => .error (b.tokens.error "unexpected EOF")
  | .ok (some word, b) => .ok (word, b)

/-- The loop of `Tokens::text`, with the text read so far. The fuel bounds the words to come. -/
def textLoop : Nat → Buffered → List UInt8 → Except Error (List UInt8 × Buffered)
  | 0, b, _ => .error (b.tokens.error "unexpected EOF")
  | fuel + 1, b, text =>
    match b.take true text with
    | .error e => .error e
    | .ok (text, b) =>
      match b.required with
      | .error e => .error e
      | .ok (word, b) =>
        if word = ascii "$end" then .ok (text, b) else textLoop fuel b (text ++ word)

/-- `Tokens::text`. -/
def text (b : Buffered) : Except Error (List UInt8 × Buffered) :=
  match textLoop (b.windows.flatten.length + 1) b [] with
  | .error e => .error e
  | .ok (bytes, b) =>
    match utf8 (trimAscii bytes) with
    | .error e => .error e
    | .ok text => .ok (text, b)

/-! ## Independence of the windows -/

section
variable {b : Buffered}

/-- A source whose windows are used up. -/
theorem fillBuf_nil (h : b.windows = []) :
    b.fillBuf = match b.fault with | none => .ok [] | some message => .error (.io message) := by
  unfold fillBuf
  rw [h]
  cases b.fault <;> rfl

/-- The buffer is filled with the next window. -/
theorem fillBuf_cons {window : List UInt8} {rest : List (List UInt8)}
    (h : b.windows = window :: rest) : b.fillBuf = .ok window := by
  unfold fillBuf
  rw [h]

/-- Consuming a part of the current window drops its bytes. -/
theorem tokens_consume {window : List UInt8} {rest : List (List UInt8)} {n : Nat}
    (h : b.windows = window :: rest) :
    (b.consume n).tokens = ⟨window.drop n ++ rest.flatten, b.offset + n, b.fault⟩ := by
  unfold consume
  split
  next hnil => rw [h] at hnil; cases hnil
  next window' rest' hcons =>
    rw [h] at hcons
    cases hcons
    split
    · rfl
    next hge =>
      have hdrop : window.drop n = [] := List.drop_eq_nil_of_le (Nat.le_of_not_lt hge)
      rw [hdrop, List.nil_append]
      rfl

/-- Without windows nothing is consumed. -/
theorem consume_nil {n : Nat} (h : b.windows = []) : b.consume n = b := by
  unfold consume
  split
  · rfl
  next hcons => rw [h] at hcons; cases hcons

/-- A run of bytes, and what follows it. -/
theorem take_run (p : UInt8 → Bool) (xs : List UInt8) :
    xs.take (xs.takeWhile p).length = xs.takeWhile p := by
  conv => enter [1, 2]; rw [← List.takeWhile_append_dropWhile (p := p) (l := xs)]
  exact List.take_left

/-- Dropping a run by its length is dropping it byte by byte. -/
theorem drop_run (p : UInt8 → Bool) (xs : List UInt8) :
    xs.drop (xs.takeWhile p).length = xs.dropWhile p := by
  conv => enter [1, 2]; rw [← List.takeWhile_append_dropWhile (p := p) (l := xs)]
  exact List.drop_left

/-- A run that stops inside the first part of an input is a run of that part. -/
theorem run_inside {p : UInt8 → Bool} {xs : List UInt8} (ys : List UInt8)
    (h : (xs.takeWhile p).length < xs.length) :
    (xs ++ ys).takeWhile p = xs.takeWhile p ∧ (xs ++ ys).dropWhile p = xs.dropWhile p ++ ys ∧
      xs.dropWhile p ≠ [] := by
  have hne : xs.dropWhile p ≠ [] := by
    intro hnil
    have hlength := congrArg List.length (List.takeWhile_append_dropWhile (p := p) (l := xs))
    rw [hnil, List.append_nil] at hlength
    omega
  refine ⟨?_, ?_, hne⟩
  · rw [List.takeWhile_append, if_neg (Nat.ne_of_lt h)]
  · rw [List.dropWhile_append, if_neg (by simpa using hne)]

/-- A run that reaches the end of the first part of an input goes on in the second. -/
theorem run_across {p : UInt8 → Bool} {xs : List UInt8} (ys : List UInt8)
    (h : xs.length ≤ (xs.takeWhile p).length) :
    xs.takeWhile p = xs ∧ (xs ++ ys).takeWhile p = xs ++ ys.takeWhile p ∧
      (xs ++ ys).dropWhile p = ys.dropWhile p := by
  have hall : xs.takeWhile p = xs := (List.takeWhile_prefix p).eq_of_length_le h
  have hpos : ∀ b ∈ xs, p b = true := fun b hb => List.mem_takeWhile_imp (hall.symm ▸ hb)
  exact ⟨hall, List.takeWhile_append_of_pos hpos, List.dropWhile_append_of_pos hpos⟩

/-- What `take` reads does not depend on the windows. -/
theorem take_tokens (whitespace : Bool) (b : Buffered) (output : List UInt8) :
    (b.take whitespace output).map (fun r => (r.1, r.2.tokens)) =
      (b.tokens.take whitespace).map fun r => (output ++ r.1, r.2) := by
  induction hlen : b.windows.length using Nat.strongRecOn generalizing b output with
  | _ n ih =>
  subst hlen
  cases hwindows : b.windows with
  | nil =>
    have htokens : b.tokens = ⟨[], b.offset, b.fault⟩ := by rw [tokens, hwindows]; rfl
    have hfill := fillBuf_nil hwindows
    rw [take, htokens]
    split
    next e he =>
      rw [hfill] at he
      cases hfault : b.fault with
      | none => rw [hfault] at he; cases he
      | some message => rw [hfault] at he; cases he; rfl
    next bytes hbytes =>
      rw [hfill] at hbytes
      cases hfault : b.fault with
      | some message => rw [hfault] at hbytes; cases hbytes
      | none =>
        rw [hfault] at hbytes
        cases hbytes
        simp [Tokens.take, consume_nil hwindows, htokens, hfault, Except.map]
  | cons window rest =>
    have hfill := fillBuf_cons hwindows
    rw [take]
    split
    next e he => rw [hfill] at he; cases he
    next bytes hbytes =>
    rw [hfill] at hbytes
    cases hbytes
    have hne : window ≠ [] := b.nonempty window (by rw [hwindows]; exact .head _)
    have htokens : b.tokens = ⟨window ++ rest.flatten, b.offset, b.fault⟩ := by
      rw [tokens, hwindows]; rfl
    dsimp only
    split
    next hdone =>
      obtain ⟨hrun, hrest, hleft⟩ := run_inside rest.flatten (hdone.resolve_right hne)
      rw [take_run, htokens, Tokens.take]
      dsimp only
      obtain ⟨c, tail, hcons⟩ := List.exists_cons_of_ne_nil hleft
      rw [hrun, hrest, Except.map, tokens_consume hwindows, drop_run, hcons]
      rfl
    next hdone =>
      simp only [not_or, not_lt] at hdone
      obtain ⟨hall, hrun, hrest⟩ := run_across rest.flatten hdone.1
      have hnext : (b.consume (window.takeWhile fun c =>
          isAsciiWhitespace c == whitespace).length).tokens =
          ⟨rest.flatten, b.offset + window.length, b.fault⟩ := by
        rw [tokens_consume hwindows, hall, List.drop_length, List.nil_append]
      rw [ih _ (windows_consume hfill hne hdone.1) _ _ rfl, hnext, htokens, take_run, hall,
        Tokens.take, Tokens.take]
      dsimp only
      rw [hrun, hrest]
      split
      · rfl
      · simp [Except.map, Nat.add_assoc]

/-- A word that was begun goes on to its end. -/
theorem nextLoop_word (b : Buffered) {word : List UInt8} (hword : word ≠ []) :
    (b.nextLoop word).map (fun r => (r.1, r.2.1, r.2.2.tokens)) =
      match b.tokens.input.dropWhile isWord, b.fault with
      | [], some message => .error (.io message)
      | rest, fault => .ok (true, word ++ b.tokens.input.takeWhile isWord,
          ⟨rest, b.offset + (b.tokens.input.takeWhile isWord).length, fault⟩) := by
  induction hlen : b.windows.length using Nat.strongRecOn generalizing b word with
  | _ n ih =>
  subst hlen
  have hempty : word.isEmpty = false := by simpa using hword
  cases hwindows : b.windows with
  | nil =>
    have htokens : b.tokens = ⟨[], b.offset, b.fault⟩ := by rw [tokens, hwindows]; rfl
    have hfill := fillBuf_nil hwindows
    rw [nextLoop, htokens]
    split
    next e he =>
      rw [hfill] at he
      cases hfault : b.fault with
      | none => rw [hfault] at he; cases he
      | some message => rw [hfault] at he; cases he; rfl
    next bytes hbytes =>
      rw [hfill] at hbytes
      cases hfault : b.fault with
      | some message => rw [hfault] at hbytes; cases hbytes
      | none =>
        rw [hfault] at hbytes
        cases hbytes
        simp [hempty, htokens, hfault, Except.map]
  | cons window rest =>
    have hfill := fillBuf_cons hwindows
    rw [nextLoop]
    split
    next e he => rw [hfill] at he; cases he
    next bytes hbytes =>
    rw [hfill] at hbytes
    cases hbytes
    have hne : window ≠ [] := b.nonempty window (by rw [hwindows]; exact .head _)
    have htokens : b.tokens = ⟨window ++ rest.flatten, b.offset, b.fault⟩ := by
      rw [tokens, hwindows]; rfl
    rw [dif_neg hne]
    simp only [hempty, Bool.false_eq_true, if_false, List.drop_zero, Nat.zero_add, take_run]
    split
    next hdone =>
      obtain ⟨hrun, hrest, hleft⟩ := run_inside rest.flatten hdone
      obtain ⟨c, tail, hcons⟩ := List.exists_cons_of_ne_nil hleft
      rw [htokens, hrun, hrest, Except.map, tokens_consume hwindows, drop_run, hcons]
      rfl
    next hdone =>
      have hdone := Nat.le_of_not_lt hdone
      obtain ⟨hall, hrun, hrest⟩ := run_across rest.flatten hdone
      have hnext : (b.consume (window.takeWhile isWord).length).tokens =
          ⟨rest.flatten, b.offset + window.length, b.fault⟩ := by
        rw [tokens_consume hwindows, hall, List.drop_length, List.nil_append]
      have hoffset : (b.consume (window.takeWhile isWord).length).offset =
          b.offset + window.length := congrArg Tokens.offset hnext
      have hfault : (b.consume (window.takeWhile isWord).length).fault = b.fault :=
        congrArg Tokens.fault hnext
      rw [ih _ (windows_consume hfill hne hdone) _ (by simp [hword]) rfl, hnext, htokens, hrun,
        hrest, hoffset, hfault, hall]
      cases hleft : rest.flatten.dropWhile isWord with
      | nil => cases b.fault <;> simp [Nat.add_assoc]
      | cons c tail => simp [Nat.add_assoc]

/-- The next word does not depend on the windows. -/
theorem nextInto_tokens (b : Buffered) :
    b.nextInto.map (fun r => (if r.1 then some r.2.1 else none, r.2.2.tokens)) =
      b.tokens.nextInto := by
  unfold nextInto
  induction hlen : b.windows.length using Nat.strongRecOn generalizing b with
  | _ n ih =>
  subst hlen
  cases hwindows : b.windows with
  | nil =>
    have htokens : b.tokens = ⟨[], b.offset, b.fault⟩ := by rw [tokens, hwindows]; rfl
    have hfill := fillBuf_nil hwindows
    rw [nextLoop, htokens]
    split
    next e he =>
      rw [hfill] at he
      cases hfault : b.fault with
      | none => rw [hfault] at he; cases he
      | some message => rw [hfault] at he; cases he; rfl
    next bytes hbytes =>
      rw [hfill] at hbytes
      cases hfault : b.fault with
      | some message => rw [hfault] at hbytes; cases hbytes
      | none =>
        rw [hfault] at hbytes
        cases hbytes
        simp [Tokens.nextInto, htokens, hfault, Except.map]
  | cons window rest =>
    have hfill := fillBuf_cons hwindows
    rw [nextLoop]
    split
    next e he => rw [hfill] at he; cases he
    next bytes hbytes =>
    rw [hfill] at hbytes
    cases hbytes
    have hne : window ≠ [] := b.nonempty window (by rw [hwindows]; exact .head _)
    have htokens : b.tokens = ⟨window ++ rest.flatten, b.offset, b.fault⟩ := by
      rw [tokens, hwindows]; rfl
    rw [dif_neg hne]
    simp only [List.isEmpty_nil, if_true, List.nil_append, drop_run, take_run]
    have hlength : window.length = (window.takeWhile isAsciiWhitespace).length +
        (window.dropWhile isAsciiWhitespace).length := by
      rw [← List.length_append, List.takeWhile_append_dropWhile]
    rcases Nat.lt_or_ge (window.takeWhile isAsciiWhitespace).length window.length with hskip | hskip
    · -- The window has a byte of the word.
      obtain ⟨hgap, hbody, hleft⟩ := run_inside rest.flatten hskip
      obtain ⟨c, tail, hcons⟩ := List.exists_cons_of_ne_nil hleft
      have hc : isAsciiWhitespace c = false := by
        have hhead := List.head?_dropWhile_not isAsciiWhitespace window
        rw [hcons] at hhead
        simpa using hhead
      have hword : (window.dropWhile isAsciiWhitespace).takeWhile isWord ≠ [] := by
        simp [hcons, isWord, hc]
      have hgap' : ∀ b ∈ window.takeWhile isAsciiWhitespace, isAsciiWhitespace b = true :=
        fun b hb => List.mem_takeWhile_imp hb
      have hsplit : window.takeWhile isAsciiWhitespace ++
          window.dropWhile isAsciiWhitespace = window :=
        List.takeWhile_append_dropWhile
      have hinput : b.tokens.input = window.takeWhile isAsciiWhitespace ++
          (window.dropWhile isAsciiWhitespace ++ rest.flatten) := by
        rw [htokens, ← List.append_assoc, hsplit]
      split
      next hdone =>
        have hinside : ((window.dropWhile isAsciiWhitespace).takeWhile isWord).length <
            (window.dropWhile isAsciiWhitespace).length := by omega
        obtain ⟨hrun, hrest, hleft'⟩ := run_inside rest.flatten hinside
        obtain ⟨d, tail', hcons'⟩ := List.exists_cons_of_ne_nil hleft'
        have hd : isAsciiWhitespace d = true := by
          have hhead := List.head?_dropWhile_not isWord (window.dropWhile isAsciiWhitespace)
          rw [hcons'] at hhead
          simpa [isWord] using hhead
        have hshape : b.tokens.input = window.takeWhile isAsciiWhitespace ++
            ((window.dropWhile isAsciiWhitespace).takeWhile isWord ++
              ((window.dropWhile isAsciiWhitespace).dropWhile isWord ++ rest.flatten)) := by
          rw [hinput]
          conv => enter [2, 2]; rw [← List.append_assoc, List.takeWhile_append_dropWhile]
        rw [Tokens.nextInto_of_shape hshape hgap'
          (fun b hb => by simpa [isWord] using List.mem_takeWhile_imp hb) hword
          (.inr ⟨d, tail' ++ rest.flatten, by rw [hcons']; rfl, hd⟩), Except.map,
          tokens_consume hwindows, ← List.drop_drop, drop_run, drop_run, htokens]
        rfl
      next hdone =>
        have hacross : (window.dropWhile isAsciiWhitespace).length ≤
            ((window.dropWhile isAsciiWhitespace).takeWhile isWord).length := by omega
        obtain ⟨hall, hrun, hrest⟩ := run_across rest.flatten hacross
        have hfull : (window.takeWhile isAsciiWhitespace).length +
            ((window.dropWhile isAsciiWhitespace).takeWhile isWord).length = window.length := by
          rw [hall, ← hlength]
        rw [hfull]
        have hnext : (b.consume window.length).tokens =
            ⟨rest.flatten, b.offset + window.length, b.fault⟩ := by
          rw [tokens_consume hwindows, List.drop_length, List.nil_append]
        have hoffset : (b.consume window.length).offset = b.offset + window.length :=
          congrArg Tokens.offset hnext
        have hfault : (b.consume window.length).fault = b.fault := congrArg Tokens.fault hnext
        have hgoes := nextLoop_word (b.consume window.length) hword
        rw [hnext, hoffset, hfault] at hgoes
        have hcompose : ∀ x : Except Error (Bool × List UInt8 × Buffered),
            x.map (fun r => (if r.1 then some r.2.1 else none, r.2.2.tokens)) =
              (x.map fun r => (r.1, r.2.1, r.2.2.tokens)).map
                fun r => (if r.1 then some r.2.1 else none, r.2.2) := by
          intro x
          cases x <;> rfl
        rw [hcompose, hgoes, htokens, Tokens.nextInto]
        dsimp only
        rw [hbody, hrun, hrest]
        have hlength' := congrArg List.length
          (List.takeWhile_append_dropWhile (p := isWord) (l := rest.flatten))
        rw [List.length_append] at hlength'
        have hoffset' : (window ++ rest.flatten).length - (rest.flatten.dropWhile isWord).length =
            window.length + (rest.flatten.takeWhile isWord).length := by
          rw [List.length_append]
          omega
        have hnonempty : (window.dropWhile isAsciiWhitespace ++
            rest.flatten.takeWhile isWord).isEmpty = false := by
          rw [hcons]
          rfl
        rw [hall, hoffset', hnonempty]
        cases rest.flatten.dropWhile isWord with
        | nil => cases b.fault <;> simp [Except.map, Nat.add_assoc]
        | cons d tail' => simp [Except.map, Nat.add_assoc]
    · -- The window is whitespace.
      obtain ⟨hall, hgap, hbody⟩ := run_across rest.flatten hskip
      have hnil : window.dropWhile isAsciiWhitespace = [] := by
        rw [← List.length_eq_zero_iff]
        omega
      have hnext : (b.consume window.length).tokens =
          ⟨rest.flatten, b.offset + window.length, b.fault⟩ := by
        rw [tokens_consume hwindows, List.drop_length, List.nil_append]
      rw [hnil, hall, List.takeWhile_nil, List.length_nil, Nat.add_zero,
        dif_neg (Nat.lt_irrefl _), ih _ (windows_consume hfill hne le_rfl) _ rfl, hnext, htokens]
      have hblank : ∀ b ∈ window, isAsciiWhitespace b = true := fun b hb => by
        rw [← hall] at hb
        exact List.mem_takeWhile_imp hb
      exact (Tokens.nextInto_skip (t := ⟨window ++ rest.flatten, b.offset, b.fault⟩) rfl
        hblank).symm

/-- The next word of the windows is that of the whole input. -/
theorem next_tokens (b : Buffered) :
    b.next.map (fun r => (r.1, r.2.tokens)) = b.tokens.nextInto := by
  rw [← nextInto_tokens]
  unfold next
  rcases b.nextInto with e | ⟨_ | _, word, b'⟩ <;> rfl

/-- So is a word that must be there. -/
theorem required_tokens (b : Buffered) :
    b.required.map (fun r => (r.1, r.2.tokens)) = b.tokens.required := by
  unfold required Tokens.required
  rw [← next_tokens]
  rcases b.next with e | ⟨_ | word, b'⟩ <;> rfl

/-- So is a text up to its end. -/
theorem textLoop_tokens (fuel : Nat) (b : Buffered) (text : List UInt8) :
    (b.textLoop fuel text).map (fun r => (r.1, r.2.tokens)) = b.tokens.textLoop fuel text := by
  induction fuel generalizing b text with
  | zero => rfl
  | succ fuel ih =>
    have htake := take_tokens true b text
    rw [textLoop, Tokens.textLoop]
    rcases hgap : b.tokens.take true with e | ⟨gap, t⟩
    · rw [hgap] at htake
      rcases htaken : b.take true text with e' | ⟨text', b'⟩
      · rw [htaken] at htake
        cases htake
        rfl
      · rw [htaken] at htake
        cases htake
    · rw [hgap] at htake
      rcases htaken : b.take true text with e' | ⟨text', b'⟩
      · rw [htaken] at htake
        cases htake
      rw [htaken] at htake
      simp only [Except.map, Except.ok.injEq, Prod.mk.injEq] at htake
      obtain ⟨rfl, rfl⟩ := htake
      have hrequired := required_tokens b'
      dsimp only
      rw [← hrequired]
      rcases b'.required with e | ⟨word, b''⟩
      · rfl
      dsimp only [Except.map]
      by_cases hend : word = ascii "$end"
      · rw [if_pos hend, if_pos hend]
      · rw [if_neg hend, if_neg hend]
        exact ih b'' _

/-- The text of a block does not depend on the windows. -/
theorem text_tokens (b : Buffered) :
    b.text.map (fun r => (r.1, r.2.tokens)) = b.tokens.text := by
  unfold text Tokens.text
  have hloop := textLoop_tokens (b.windows.flatten.length + 1) b []
  rw [show b.tokens.input = b.windows.flatten from rfl, ← hloop]
  rcases b.textLoop (b.windows.flatten.length + 1) [] with e | ⟨bytes, b'⟩
  · rfl
  dsimp only [Except.map]
  rcases utf8 (trimAscii bytes) with e | text <;> rfl

end

end Buffered

/-! ## Words of an input -/

/-- A word of the input, between what comes before and after it: a maximal run of bytes that are not
whitespace. -/
structure Run (input before word after : List UInt8) : Prop where
  split : input = before ++ (word ++ after)
  nonempty : word ≠ []
  inside : ∀ b ∈ word, isAsciiWhitespace b = false
  left : ∀ b, before.getLast? = some b → isAsciiWhitespace b = true
  right : ∀ b, after.head? = some b → isAsciiWhitespace b = true

/-- The first word `$end` of the input. -/
def FirstEnd (input before after : List UInt8) : Prop :=
  Run input before (ascii "$end") after ∧
    ∀ before' after', Run input before' (ascii "$end") after' → before.length ≤ before'.length

section
variable {input gap word rest before w after : List UInt8}

/-- Whitespace has no word. -/
theorem Run.not_blank (h : Run input before w after) :
    ¬ ∀ b ∈ input, isAsciiWhitespace b = true := by
  intro hblank
  obtain ⟨b, hb⟩ := List.exists_mem_of_ne_nil w h.nonempty
  have hmem : b ∈ input := by
    rw [h.split]
    exact List.mem_append_right _ (List.mem_append_left _ hb)
  have := hblank b hmem
  rw [h.inside b hb] at this
  cases this

/-- Two ways to take a word from the head of an input are the same. -/
theorem word_unique (h : word ++ rest = w ++ after)
    (hword : ∀ b ∈ word, isAsciiWhitespace b = false) (hw : ∀ b ∈ w, isAsciiWhitespace b = false)
    (hrest : ∀ b, rest.head? = some b → isAsciiWhitespace b = true)
    (hafter : ∀ b, after.head? = some b → isAsciiWhitespace b = true) :
    word = w ∧ rest = after := by
  rcases List.append_eq_append_iff.1 h with ⟨more, rfl, rfl⟩ | ⟨more, rfl, rfl⟩
  · cases more with
    | nil => simp
    | cons c more =>
      have hc := hrest c rfl
      rw [hw c (by simp)] at hc
      cases hc
  · cases more with
    | nil => simp
    | cons c more =>
      have hc := hafter c rfl
      rw [hword c (by simp)] at hc
      cases hc

/-- The words of an input are its first word and the words of what follows. -/
theorem Run.cons_iff (hinput : input = gap ++ (word ++ rest))
    (hgap : ∀ b ∈ gap, isAsciiWhitespace b = true)
    (hword : ∀ b ∈ word, isAsciiWhitespace b = false) (hne : word ≠ [])
    (hrest : ∀ b, rest.head? = some b → isAsciiWhitespace b = true) :
    Run input before w after ↔ (before = gap ∧ w = word ∧ after = rest) ∨
      ∃ before', before = gap ++ (word ++ before') ∧ Run rest before' w after := by
  constructor
  · intro h
    have hsplit := hinput.symm.trans h.split
    rcases List.append_eq_append_iff.1 hsplit with ⟨more, hbefore, hmore⟩ | ⟨more, hgap', hmore⟩
    · rcases List.append_eq_append_iff.1 hmore with ⟨more', rfl, hrest'⟩ | ⟨tail, hword', htail⟩
      · -- The word lies in the rest.
        refine .inr ⟨more', hbefore, hrest', h.nonempty, h.inside, fun b hb => h.left b ?_, h.right⟩
        rw [hbefore, ← List.append_assoc, List.getLast?_append, hb]
        rfl
      · cases hlast : more.getLast? with
        | some b =>
          -- The word would start inside the first one.
          have hb := h.left b (by rw [hbefore, List.getLast?_append, hlast]; rfl)
          rw [hword b (hword' ▸ List.mem_append_left _ (List.mem_of_getLast? hlast))] at hb
          cases hb
        | none =>
          obtain rfl := List.getLast?_eq_none_iff.1 hlast
          rw [List.append_nil] at hbefore
          rw [List.nil_append] at hmore
          obtain ⟨hw, hafter⟩ := word_unique hmore hword h.inside hrest h.right
          exact .inl ⟨hbefore, hw.symm, hafter.symm⟩
    · cases more with
      | nil =>
        rw [List.append_nil] at hgap'
        rw [List.nil_append] at hmore
        obtain ⟨hw, hafter⟩ := word_unique hmore.symm hword h.inside hrest h.right
        exact .inl ⟨hgap'.symm, hw.symm, hafter.symm⟩
      | cons c more =>
        -- The word would start inside the gap.
        obtain ⟨d, w', rfl⟩ := List.exists_cons_of_ne_nil h.nonempty
        have hd : d = c := by
          rw [List.cons_append, List.cons_append] at hmore
          exact (List.cons.inj hmore).1
        have hc := hgap c (by rw [hgap']; simp)
        rw [← hd, h.inside d (by simp)] at hc
        cases hc
  · rintro (⟨rfl, rfl, rfl⟩ | ⟨before', rfl, h⟩)
    · exact ⟨hinput, hne, hword, fun b hb => hgap b (List.mem_of_getLast? hb), hrest⟩
    · refine ⟨?_, h.nonempty, h.inside, fun b hb => ?_, h.right⟩
      · rw [hinput, h.split]
        simp
      · cases hlast : before'.getLast? with
        | some c =>
          rw [← List.append_assoc, List.getLast?_append, hlast] at hb
          cases hb
          exact h.left b hlast
        | none =>
          obtain rfl := List.getLast?_eq_none_iff.1 hlast
          obtain ⟨d, w', rfl⟩ := List.exists_cons_of_ne_nil h.nonempty
          have hd := hrest d (by rw [h.split]; rfl)
          rw [h.inside d (by simp)] at hd
          cases hd

end

namespace Tokens

/-- What a word read is followed by begins with whitespace. -/
theorem WordEnd.head {rest : List UInt8} {fault : Option String} (h : WordEnd rest fault)
    (b : UInt8) (hb : rest.head? = some b) : isAsciiWhitespace b = true := by
  rcases h with ⟨rfl, -⟩ | ⟨c, tail, rfl, hc⟩
  · cases hb
  · cases hb
    exact hc

/-- Skipping whitespace and reading a word is reading the word. -/
theorem take_required {t u : Tokens} {word : List UInt8} (h : t.nextInto = .ok (some word, u)) :
    ∃ gap t', t.take true = .ok (gap, t') ∧ t'.required = .ok (word, u) ∧
      t.input = gap ++ (word ++ u.input) ∧
      u = { t with input := u.input, offset := t.offset + (gap.length + word.length) } ∧
      ∀ before w after, Run t.input before w after ↔
        (before = gap ∧ w = word ∧ after = u.input) ∨
          ∃ before', before = gap ++ (word ++ before') ∧ Run u.input before' w after := by
  obtain ⟨gap, hinput, hgap, hword, hne, hend, hu⟩ := shape_of_nextInto h
  obtain ⟨c, word, rfl⟩ := List.exists_cons_of_ne_nil hne
  have hrequired : nextInto { t with
      input := c :: (word ++ u.input), offset := t.offset + gap.length } =
        .ok (some (c :: word), u) := by
    have hinput' : c :: (word ++ u.input) = [] ++ (c :: word ++ u.input) := rfl
    refine Eq.trans (nextInto_of_shape hinput' (by simp) hword hne hend) ?_
    rw [hu]
    simp [Nat.add_assoc]
  exact ⟨gap, _, take_of_shape hinput hgap (hword c (by simp)), required_eq.2 hrequired, hinput, hu,
    fun before w after => Run.cons_iff hinput hgap hword hne hend.head⟩

/-- At the end of the input the error names it. -/
theorem error_eof (t : Tokens) :
    t.error "unexpected EOF" = malformed s!"byte {t.offset}: unexpected EOF" := by
  unfold error
  simp only [String.append_assoc]
  rfl

/-- Where only whitespace is left, a word is missing. -/
theorem take_missing {t u : Tokens} (h : t.nextInto = .ok (none, u)) :
    ∃ t', t.take true = .ok (t.input, t') ∧
      t'.required = .error (malformed s!"byte {t.offset + t.input.length}: unexpected EOF") := by
  obtain ⟨hblank, hfault, -⟩ := nextInto_none h
  refine ⟨{ t with input := [], offset := t.offset + t.input.length }, ?_, ?_⟩
  · have hall : t.input.takeWhile (fun b => isAsciiWhitespace b == true) = t.input :=
      List.takeWhile_eq_self_iff.2 fun b hb => by simp [hblank b hb]
    have hnil : t.input.dropWhile (fun b => isAsciiWhitespace b == true) = [] :=
      List.dropWhile_eq_nil_iff.2 fun b hb => by simp [hblank b hb]
    unfold take
    rw [hall, hnil, hfault]
  · unfold required
    rw [nextInto_of_blank (t := { t with input := [], offset := t.offset + t.input.length })
      (by simp) hfault]
    exact congrArg Except.error (error_eof _)

/-- The text read up to the first word `$end`, and the failure when there is none. -/
theorem textLoop_end (fuel : Nat) (t : Tokens) (text : List UInt8) (hfault : t.fault = none)
    (hfuel : t.input.length < fuel) :
    (∀ before after, FirstEnd t.input before after → t.textLoop fuel text =
      .ok (text ++ before, { t with input := after, offset := t.offset + before.length + 4 })) ∧
    ((∀ before after, ¬ Run t.input before (ascii "$end") after) → t.textLoop fuel text =
      .error (malformed s!"byte {t.offset + t.input.length}: unexpected EOF")) := by
  induction fuel generalizing t text with
  | zero => exact absurd hfuel (Nat.not_lt_zero _)
  | succ fuel ih =>
    rw [textLoop]
    rcases hnext : t.nextInto with e | ⟨_ | word, u⟩
    · obtain ⟨message, hsome, -⟩ := nextInto_error hnext
      rw [hfault] at hsome
      cases hsome
    · obtain ⟨t', htake, hrequired⟩ := take_missing hnext
      refine ⟨fun before after h => absurd (nextInto_none hnext).1 h.1.not_blank, fun _ => ?_⟩
      rw [htake]
      dsimp only
      rw [hrequired]
    · obtain ⟨gap, t', htake, hrequired, hinput, hu, hruns⟩ := take_required hnext
      rw [htake]
      dsimp only
      rw [hrequired]
      dsimp only
      by_cases heq : word = ascii "$end"
      · rw [if_pos heq]
        have hfirst : Run t.input gap (ascii "$end") u.input :=
          (hruns _ _ _).2 (.inl ⟨rfl, heq.symm, rfl⟩)
        refine ⟨fun before after h => ?_, fun h => absurd hfirst (h _ _)⟩
        have hle := h.2 _ _ hfirst
        rcases (hruns _ _ _).1 h.1 with ⟨rfl, -, rfl⟩ | ⟨before', rfl, -⟩
        · rw [hu, heq]
          rfl
        · have hpos : 0 < word.length := by rw [heq]; decide
          simp only [List.length_append] at hle
          omega
      · rw [if_neg heq]
        have hlength : u.input.length < t.input.length := (nextInto_advances hnext).2 rfl
        have hfault' : u.fault = none := by rw [hu, hfault]
        obtain ⟨hfound, hmissing⟩ := ih u (text ++ gap ++ word) hfault' (by omega)
        constructor
        · rintro before after ⟨h, hmin⟩
          rcases (hruns _ _ _).1 h with ⟨-, hw, -⟩ | ⟨before', rfl, h'⟩
          · exact absurd hw.symm heq
          · have hfirst : FirstEnd u.input before' after := by
              refine ⟨h', fun b a hba => ?_⟩
              have := hmin _ _ ((hruns _ _ _).2 (.inr ⟨b, rfl, hba⟩))
              simp only [List.length_append] at this
              omega
            rw [hfound before' after hfirst, hu]
            simp [Nat.add_assoc]
        · intro h
          have hnone : ∀ b a, ¬ Run u.input b (ascii "$end") a :=
            fun b a hba => h _ _ ((hruns _ _ _).2 (.inr ⟨b, rfl, hba⟩))
          rw [hmissing hnone, hu, hinput]
          simp [Nat.add_assoc]

end Tokens

namespace Buffered

/-- The words that `next_into` and `next` deliver until there is no more, each with the bytes and
the offset after it. -/
inductive Drains : Buffered → List (List UInt8 × Tokens) → Buffered → Prop
  | done {b b' : Buffered} {word : List UInt8} :
      b.nextInto = .ok (false, word, b') → b.next = .ok (none, b') → Drains b [] b'
  | word {b b' b'' : Buffered} {word : List UInt8} {entries : List (List UInt8 × Tokens)} :
      b.nextInto = .ok (true, word, b') → b.next = .ok (some word, b') → Drains b' entries b'' →
        Drains b ((word, b'.tokens) :: entries) b''

/-- The entries are the words of an input that starts at an offset. -/
def Lists (entries : List (List UInt8 × Tokens)) (input : List UInt8) (offset : Nat) : Prop :=
  entries.Pairwise (fun x y => x.2.offset < y.2.offset) ∧
    ∀ word t, (word, t) ∈ entries ↔ ∃ before after, Run input before word after ∧
      t = ⟨after, offset + (before.length + word.length), none⟩

/-- An input that is used up has no window left. -/
theorem windows_nil {b : Buffered} (h : b.windows.flatten = []) : b.windows = [] := by
  cases hwindows : b.windows with
  | nil => rfl
  | cons window rest =>
    rw [hwindows, List.flatten_cons, List.append_eq_nil_iff] at h
    exact absurd h.1 (b.nonempty window (by rw [hwindows]; exact .head _))

/-- Reading to the end delivers the words of the input. -/
theorem drains (b : Buffered) (hfault : b.fault = none) :
    ∃ entries b', Drains b entries b' ∧ b'.windows = [] ∧
      b'.offset = b.offset + b.windows.flatten.length ∧
      Lists entries b.windows.flatten b.offset := by
  induction hlength : b.windows.flatten.length using Nat.strongRecOn generalizing b with
  | _ n ih =>
  subst hlength
  have htokens := nextInto_tokens b
  rcases hnext : b.nextInto with e | ⟨_ | _, word, b'⟩ <;> rw [hnext] at htokens
  · obtain ⟨message, hsome, -⟩ := Tokens.nextInto_error htokens.symm
    rw [show b.tokens.fault = b.fault from rfl, hfault] at hsome
    cases hsome
  · obtain ⟨hblank, -, hb'⟩ := Tokens.nextInto_none htokens.symm
    refine ⟨[], b', .done hnext (by rw [next, hnext]; rfl), ?_, ?_, .nil, fun word t => ?_⟩
    · exact windows_nil (congrArg Tokens.input hb')
    · exact congrArg Tokens.offset hb'
    · refine ⟨fun h => absurd h List.not_mem_nil, ?_⟩
      rintro ⟨before, after, h, -⟩
      exact absurd hblank h.not_blank
  · obtain ⟨gap, t', -, -, hinput, hu, hruns⟩ := Tokens.take_required htokens.symm
    have hoffset : b'.offset = b.offset + (gap.length + word.length) := congrArg Tokens.offset hu
    have hfault' : b'.fault = none := (congrArg Tokens.fault hu).trans hfault
    have hshorter : b'.windows.flatten.length < b.windows.flatten.length :=
      (Tokens.nextInto_advances htokens.symm).2 rfl
    obtain ⟨entries, b'', hdrains, hnil, hend, hordered, hwords⟩ := ih _ hshorter b' hfault' rfl
    have hlength : b.windows.flatten.length =
        gap.length + (word.length + b'.windows.flatten.length) := by
      have := congrArg List.length hinput
      rwa [List.length_append, List.length_append] at this
    refine ⟨_, b'', .word hnext (by rw [next, hnext]; rfl) hdrains, hnil, by omega,
      List.pairwise_cons.2 ⟨?_, hordered⟩, fun w t => ?_⟩
    · rintro ⟨w, t⟩ hmem
      obtain ⟨before, after, hrun, rfl⟩ := (hwords w t).1 hmem
      have hpos := List.length_pos_iff.2 hrun.nonempty
      show b'.offset < b'.offset + (before.length + w.length)
      omega
    · rw [List.mem_cons, hwords]
      constructor
      · rintro (h | ⟨before, after, h, rfl⟩)
        · cases h
          refine ⟨gap, b'.windows.flatten, (hruns _ _ _).2 (.inl ⟨rfl, rfl, rfl⟩), ?_⟩
          rw [tokens, hoffset, hfault']
        · refine ⟨_, after, (hruns _ _ _).2 (.inr ⟨before, rfl, h⟩), ?_⟩
          rw [hoffset]
          simp [Nat.add_assoc]
      · rintro ⟨before, after, h, rfl⟩
        rcases (hruns _ _ _).1 h with ⟨rfl, rfl, rfl⟩ | ⟨before', rfl, h'⟩
        · refine .inl ?_
          rw [← hoffset, ← hfault']
          rfl
        · refine .inr ⟨before', after, h', ?_⟩
          rw [hoffset]
          simp [Nat.add_assoc]

/-- **Unbuffered tokens.** However the input is cut into windows, reading words to its end delivers
exactly its words in order, each leaving the source just past it, and uses up every byte. Reading a
text delivers the trimmed bytes before the first word `$end` and leaves the source just past that
word; without such a word it fails. -/
theorem tokens_unbuffered (b : Buffered) (hfault : b.fault = none) :
    (∃ entries b', Drains b entries b' ∧ b'.windows = [] ∧
      b'.offset = b.offset + b.windows.flatten.length ∧
      Lists entries b.windows.flatten b.offset) ∧
    (∀ before after, FirstEnd b.windows.flatten before after →
      b.text.map (fun r => (r.1, r.2.tokens)) = (utf8 (trimAscii before)).map fun text =>
        (text, ⟨after, b.offset + before.length + 4, none⟩)) ∧
    ((∀ before after, ¬ Run b.windows.flatten before (ascii "$end") after) →
      b.text = .error (malformed
        s!"byte {b.offset + b.windows.flatten.length}: unexpected EOF")) := by
  have hloop := Tokens.textLoop_end (b.tokens.input.length + 1) b.tokens [] hfault
    (Nat.lt_succ_self _)
  have htext := text_tokens b
  refine ⟨b.drains hfault, fun before after h => ?_, fun h => ?_⟩
  · rw [htext, Tokens.text, hloop.1 before after h]
    dsimp only
    rw [show b.tokens.fault = none from hfault, List.nil_append]
    rcases utf8 (trimAscii before) with e | text <;> rfl
  · rw [Tokens.text, hloop.2 h] at htext
    cases hread : b.text with
    | error e =>
      rw [hread] at htext
      cases htext
      rfl
    | ok r => rw [hread] at htext; cases htext

/-- The comment text `a  b`, cut inside its gap and inside its `$end`. -/
def splitComment : Buffered :=
  ⟨[ascii " a ", ascii " b $e", ascii "nd #1"], by decide, 10, none⟩

/-- A comment that is cut between two of its words is read as the whole one. -/
theorem tokens_unbuffered_split :
    splitComment.text.map (fun r => (r.1, r.2.tokens)) =
      .ok (ascii "a  b", ⟨ascii " #1", 20, none⟩) := by
  have hrun : Run splitComment.windows.flatten (ascii " a  b ") (ascii "$end") (ascii " #1") :=
    ⟨by decide +kernel, by decide +kernel, by decide +kernel, by decide +kernel, by decide +kernel⟩
  have hearlier : ∀ n < 6, (splitComment.windows.flatten.drop n).take 4 ≠ ascii "$end" := by
    decide +kernel
  have hfirst : FirstEnd splitComment.windows.flatten (ascii " a  b ") (ascii " #1") := by
    refine ⟨hrun, fun before after h => Nat.le_of_not_lt fun hlt => hearlier before.length hlt ?_⟩
    rw [h.split, List.drop_left]
    exact List.take_left' rfl
  rw [(tokens_unbuffered splitComment rfl).2.1 _ _ hfirst]
  rfl

end Buffered

end Ondas.Vcd
