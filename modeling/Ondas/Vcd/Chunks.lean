import Ondas.Vcd.Validate

/-!
# Chunks of a body

A large body is cut before timestamps that follow a line feed, and each chunk is walked alone.
`Cutting` is what the cuts satisfy. A chunk's source and the file's source at the same offset are
`Split`: what the chunk reads, the file reads too (`Split.item`), and where the chunk ends the file
stands before the next cut (`Split.ends`), from where its next word is the timestamp the next chunk
starts with (`Before.item`, `Cutting.stamp`).
-/

namespace Ondas.Vcd

open Library

/-- The cuts of a file from its first: none is before the one to its left, each inner cut is a `#`
directly after a line feed, and the last one is the end of the file. -/
inductive Cutting (bytes : List UInt8) : List Nat → Prop
  | last {a : Nat} : a ≤ bytes.length → Cutting bytes [a, bytes.length]
  | cut {a b : Nat} {cuts : List Nat} : a ≤ b → bytes[b - 1]? = some 10 → bytes[b]? = some 35 →
      Cutting bytes (b :: cuts) → Cutting bytes (a :: b :: cuts)

/-- `cuts.windows(2)`. -/
def windows (cuts : List Nat) : List (Nat × Nat) := cuts.zip cuts.tail

@[simp] theorem windows_pair (a b : Nat) : windows [a, b] = [(a, b)] := rfl

@[simp] theorem windows_cons (a b : Nat) (cuts : List Nat) :
    windows (a :: b :: cuts) = (a, b) :: windows (b :: cuts) := rfl

/-- The byte before the end of a chunk is whitespace, or the chunk ends with the file. -/
def SealedAt (bytes : List UInt8) (b : Nat) : Prop :=
  b = bytes.length ∨ b ≤ bytes.length ∧ ∃ x, bytes[b - 1]? = some x ∧ isAsciiWhitespace x = true

/-- A sealed place lies inside the input. -/
theorem SealedAt.le {bytes : List UInt8} {b : Nat} (h : SealedAt bytes b) : b ≤ bytes.length := by
  rcases h with rfl | ⟨h, -⟩
  · exact le_rfl
  · exact h

/-- A cut before a timestamp seals the chunk before it. -/
theorem SealedAt.of_cut {bytes : List UInt8} {b : Nat} (hline : bytes[b - 1]? = some 10)
    (hstamp : bytes[b]? = some 35) : SealedAt bytes b := by
  obtain ⟨hlt, -⟩ := List.getElem?_eq_some_iff.1 hstamp
  exact .inr ⟨hlt.le, 10, hline, by decide⟩

/-! ## A chunk and the file at one offset -/

/-- The sources of a chunk that ends at `b` and of the file, at the same offset. -/
structure Split (bytes : List UInt8) (b : Nat) (t u : Tokens) : Prop where
  chunk : t.Of bytes b
  file : u = chunkTokens bytes t.offset bytes.length
  le : t.offset ≤ b

/-- The source of a chunk, and of the file at its start. -/
theorem Split.start {bytes : List UInt8} {a b : Nat} (h : a ≤ b) :
    Split bytes b (chunkTokens bytes a b) (chunkTokens bytes a bytes.length) :=
  ⟨rfl, rfl, h⟩

/-- The bytes of the file from an offset on. -/
theorem chunkTokens_file (bytes : List UInt8) (offset : Nat) :
    chunkTokens bytes offset bytes.length = ⟨bytes.drop offset, offset, none⟩ := by
  rw [← tokensFrom_eq]; rfl

/-- The bytes of a chunk are followed in the file by the bytes from its end. -/
theorem chunk_append (bytes : List UInt8) {offset b : Nat} (h : offset ≤ b) :
    bytes.drop offset = (bytes.drop offset).take (b - offset) ++ bytes.drop b := by
  conv_lhs => rw [← List.take_append_drop (b - offset) (bytes.drop offset), List.drop_drop]
  rw [Nat.add_sub_cancel' h]

/-- No word of a sealed chunk runs on into the next. -/
theorem Split.grows {bytes : List UInt8} {b : Nat} {t u : Tokens} (hseal : SealedAt bytes b)
    (h : Split bytes b t u) : t.Grows u := by
  obtain ⟨hchunk, rfl, hle⟩ := h
  rw [chunkTokens_file]
  refine ⟨rfl, rfl, bytes.drop b, ?_, fun _ => ?_⟩
  · rw [hchunk]; exact chunk_append bytes hle
  rcases hseal with rfl | ⟨hlen, x, hx, hws⟩
  · exact .inl (List.drop_length)
  · by_cases hend : t.offset = b
    · refine .inr (.inl ?_)
      rw [hchunk, hend]
      simp [chunkTokens]
    · refine .inr (.inr ⟨x, ?_, hws⟩)
      rw [hchunk]
      simp only [chunkTokens, List.getLast?_eq_getElem?, List.length_take, List.length_drop]
      rw [List.getElem?_take_of_lt (by omega), List.getElem?_drop, ← hx]
      congr 1
      omega

/-- What a sealed chunk reads, the file reads too. -/
theorem Split.item {bytes : List UInt8} {b : Nat} {t u t' : Tokens} {block : Bool} {i : Item}
    (hseal : SealedAt bytes b) (h : Split bytes b t u) (hitem : t.item block = .ok (some i, t')) :
    ∃ u', u.item block = .ok (some i, u') ∧ Split bytes b t' u' := by
  obtain ⟨u', hu, hgrow⟩ := Tokens.item_grows (h.grows hseal) hitem
  have hadv := (Tokens.item_advances hitem).1
  have hof : u'.Of bytes bytes.length := by
    refine Tokens.Of.advances (t := u) ?_ (Tokens.item_advances hu).1
    rw [h.file]; rfl
  refine ⟨u', hu, h.chunk.advances hadv, ?_, ?_⟩
  · have hoff := hgrow.1
    rw [← hoff]; exact hof
  · obtain ⟨used, hin, hoff, -⟩ := hadv
    have hlen : used.length ≤ b - t.offset := by
      have hinput : t.input = (bytes.drop t.offset).take (b - t.offset) := by
        conv_lhs => rw [h.chunk]
        rfl
      have := congrArg List.length (hinput.symm.trans hin)
      rw [List.length_append, List.length_take] at this
      omega
    have hle := h.le
    omega

/-- The file stands before the cut `b`, with only whitespace in between. -/
def Before (bytes : List UInt8) (b : Nat) (u : Tokens) : Prop :=
  ∃ gap, u.input = gap ++ bytes.drop b ∧ (∀ x ∈ gap, isAsciiWhitespace x = true) ∧
    u.offset + gap.length = b ∧ u.fault = none

/-- Where a chunk ends, the file stands before its end. -/
theorem Split.ends {bytes : List UInt8} {b : Nat} {t u t' : Tokens} {block : Bool}
    (hseal : SealedAt bytes b) (h : Split bytes b t u) (hitem : t.item block = .ok (none, t')) :
    Before bytes b u ∧ t'.offset = b := by
  obtain ⟨hblank, -, ht'⟩ := Tokens.nextInto_none (Tokens.item_none hitem)
  have hinput : t.input = (bytes.drop t.offset).take (b - t.offset) := by
    conv_lhs => rw [h.chunk]
    rfl
  have hlen : t.offset + t.input.length = b := by
    have hb := hseal.le
    have hle := h.le
    rw [hinput, List.length_take, List.length_drop]
    omega
  refine ⟨⟨t.input, ?_, hblank, ?_, ?_⟩, by rw [ht']; exact hlen⟩
  · rw [h.file, chunkTokens_file, hinput]; exact chunk_append bytes h.le
  · rw [h.file]; exact hlen
  · rw [h.file]; rfl

/-- An item is decided by the next word. -/
theorem Tokens.item_congr {t u : Tokens} (block : Bool) (h : t.nextInto = u.nextInto) :
    t.item block = u.item block := by
  unfold Tokens.item; rw [h]

/-- Before a cut the file reads what it reads at the cut. -/
theorem Before.item {bytes : List UInt8} {b : Nat} {u : Tokens} (h : Before bytes b u)
    (block : Bool) : u.item block = (chunkTokens bytes b bytes.length).item block := by
  obtain ⟨gap, hin, hgap, hoff, hfault⟩ := h
  refine Tokens.item_congr block ?_
  rw [Tokens.nextInto_skip hin hgap, chunkTokens_file, hoff, hfault]

/-- Before the end of the file no item is left. -/
theorem Before.finished {bytes : List UInt8} {u : Tokens} (h : Before bytes bytes.length u)
    (block : Bool) :
    u.item block = .ok (none, chunkTokens bytes bytes.length bytes.length) := by
  rw [h.item block, chunkTokens_file, List.drop_length]
  unfold Tokens.item
  rw [Tokens.nextInto_of_blank (by simp) rfl]
  rfl

/-- A chunk that starts at a `#` starts with a timestamp, when it has any item. -/
theorem item_stamp {bytes : List UInt8} {b limit : Nat} {t : Tokens} {block : Bool} {i : Item}
    (hstamp : bytes[b]? = some 35) (h : (chunkTokens bytes b limit).item block = .ok (some i, t)) :
    ∃ digits, i = .stamp digits := by
  unfold Tokens.item at h
  split at h
  · cases h
  · cases h
  next word t' hnext =>
  obtain ⟨gap, hin, hgap, -, hne, -, -⟩ := Tokens.shape_of_nextInto hnext
  -- The first byte of the chunk is the `#`, so there is no gap and the word starts with it.
  have hhead : (gap ++ (word ++ t'.input)).head? = some 35 := by
    rw [← hin]
    have hdrop : (bytes.drop b).head? = some 35 := by rw [List.head?_drop]; exact hstamp
    obtain ⟨tail, htail⟩ := List.head?_eq_some_iff.1 hdrop
    have hsub : (chunkTokens bytes b limit).input = (35 :: tail).take (limit - b) := by
      rw [← htail]; rfl
    cases hn : limit - b with
    | zero =>
      rw [hsub, hn] at hin
      simp [hne] at hin
    | succ n => rw [hsub, hn]; rfl
  have hword : word.head? = some 35 := by
    cases gap with
    | cons g gap =>
      obtain rfl : g = 35 := by simpa using hhead
      exact absurd (hgap 35 (by simp)) (by decide)
    | nil =>
      obtain ⟨c, word', rfl⟩ := List.exists_cons_of_ne_nil hne
      simpa using hhead
  have hletter : word.headD 0 = 35 := by
    rw [List.headD_eq_head?_getD, hword]; rfl
  dsimp only at h
  rw [if_pos hletter] at h
  cases h
  exact ⟨_, rfl⟩

end Ondas.Vcd
