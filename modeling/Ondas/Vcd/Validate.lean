import Ondas.Vcd.Reader

/-!
# A body is validated once

Opening walks the body with nothing selected; a query walks it again with the final encodings, its
selection, an early end, and from a position in the middle. `Accepted` says that a validating walk
from some state ends well with the reader's encodings. Every step of a query from a position at
which such a walk stands is matched by a step of that walk (`follow_step`), so the query fails only
where its input does, and the positions it hands out are accepted again (`query_follows`).
-/

namespace Ondas.Vcd

open Library

/-! ## What validation keeps -/

/-- A history once written keeps its encoding, and the tables keep their size. -/
structure Walk.Keeps (w w' : Walk) : Prop where
  encodings : w'.encodings.length = w.encodings.length
  seen : w'.seen.length = w.seen.length
  written : ∀ i, w.seen.getD i false = true → w'.seen.getD i false = true ∧
    w'.encodings.getD i .unsupported = w.encodings.getD i .unsupported

namespace Walk

theorem Keeps.refl (w : Walk) : Keeps w w := ⟨rfl, rfl, fun _ h => ⟨h, rfl⟩⟩

/-- What two parts of a walk keep they keep together. -/
theorem Keeps.trans {u v w : Walk} (h : Keeps u v) (h' : Keeps v w) : Keeps u w := by
  refine ⟨h'.encodings.trans h.encodings, h'.seen.trans h.seen, fun i hi => ?_⟩
  obtain ⟨hv, hev⟩ := h.written i hi
  obtain ⟨hw, hew⟩ := h'.written i hv
  exact ⟨hw, hew.trans hev⟩

/-- Walks with the same tables. -/
theorem Keeps.of_eq {w w' : Walk} (he : w'.encodings = w.encodings) (hs : w'.seen = w.seen) :
    Keeps w w' := by
  refine ⟨by rw [he], by rw [hs], fun i hi => ⟨by rw [hs]; exact hi, by rw [he]⟩⟩

/-- Noting a write marks its history and may change the encoding of an unwritten history only. -/
theorem note_keeps (args : WalkArgs) (w : Walk) (index : Nat) (letter : UInt8) :
    Keeps w (w.note args index letter) := by
  unfold note
  split
  · exact .refl w
  refine ⟨?_, by simp, fun i hi => ⟨?_, ?_⟩⟩
  · dsimp only; split <;> simp
  · dsimp only
    rw [List.getD_eq_getElem?_getD, List.getElem?_set]
    rw [List.getD_eq_getElem?_getD] at hi
    split
    · next hindex =>
      subst hindex
      cases hlt : w.seen[index]? with
      | none => rw [hlt] at hi; cases hi
      | some b => rw [if_pos (List.getElem?_eq_some_iff.1 hlt).1]; rfl
    · exact hi
  · dsimp only
    split
    · next hconv =>
      simp only [Bool.and_eq_true, Bool.not_eq_true', beq_iff_eq] at hconv
      rw [List.getD_eq_getElem?_getD, List.getElem?_set_ne, ← List.getD_eq_getElem?_getD]
      rintro rfl
      rw [hi] at hconv
      exact absurd hconv.2 (by simp)
    · rfl

/-- After noting a write its history is marked, when it has a place in the table. -/
theorem note_seen {args : WalkArgs} (hval : args.selected = none) (w : Walk) {index : Nat}
    (letter : UInt8) (h : index < w.seen.length) :
    (w.note args index letter).seen.getD index false = true := by
  simp only [note, hval]
  rw [List.getD_eq_getElem?_getD, List.getElem?_set_self h]
  rfl

/-- Only a value change touches the tables of the histories. -/
theorem act_tables {args : WalkArgs} {offset : Nat} {w w' : Walk} {i : Item} {recs : List Record}
    (h : act args offset w i = .next w' recs) :
    (∃ letter payload id, value args offset w letter payload id = .next w' recs) ∨
      w'.encodings = w.encodings ∧ w'.seen = w.seen := by
  cases i with
  | stamp digits =>
    obtain ⟨n, -, -, -, -, -, rfl⟩ := stamp_next h
    exact .inr ⟨rfl, rfl⟩
  | command word =>
    simp only [act, command] at h
    split at h
    · cases h; exact .inr ⟨rfl, rfl⟩
    split at h
    · cases h; exact .inr ⟨rfl, rfl⟩
    · cases h
  | comment text => cases h; exact .inr ⟨rfl, rfl⟩
  | value letter payload id => exact .inl ⟨letter, payload, id, h⟩

/-- A value change that is accepted names a history and decodes under its encoding. -/
theorem value_next {args : WalkArgs} {offset : Nat} {w w' : Walk} {letter : UInt8}
    {payload id : List UInt8} {recs : List Record}
    (h : value args offset w letter payload id = .next w' recs) :
    ∃ index ov, args.lookup id = some index ∧
      decodeValue args.parseReal (w.note args index letter).tokens (w.note args index letter).time
        (picks args index) ((w.note args index letter).encodings.getD index .unsupported) letter
        payload = .ok ov ∧
      w' = { w.note args index letter with span := some (w.span.getD ⟨0, 0⟩) } := by
  unfold value at h
  split at h
  · cases h
  next index hindex =>
  dsimp only at h
  split at h
  · cases h
  · next hv => cases h; exact ⟨index, _, hindex, hv, rfl⟩
  · next hv => cases h; exact ⟨index, _, hindex, hv, rfl⟩

/-- A value change of a known history that decodes is accepted. -/
theorem value_accepts (args : WalkArgs) (offset : Nat) (w : Walk) {letter : UInt8}
    {payload id : List UInt8} {index : Nat} {ov : Option Value}
    (hindex : args.lookup id = some index)
    (hv : decodeValue args.parseReal (w.note args index letter).tokens
      (w.note args index letter).time (picks args index)
      ((w.note args index letter).encodings.getD index .unsupported) letter payload = .ok ov) :
    ∃ recs, value args offset w letter payload id =
      .next { w.note args index letter with span := some (w.span.getD ⟨0, 0⟩) } recs := by
  unfold value
  simp only [hindex, hv]
  cases ov with
  | none => exact ⟨_, rfl⟩
  | some v => exact ⟨_, rfl⟩

/-- Acting on an item keeps what is written. -/
theorem act_keeps {args : WalkArgs} {offset : Nat} {w w' : Walk} {i : Item} {recs : List Record}
    (h : act args offset w i = .next w' recs) : Keeps w w' := by
  rcases act_tables h with ⟨letter, payload, id, hvalue⟩ | ⟨he, hs⟩
  · obtain ⟨index, ov, -, -, rfl⟩ := value_next hvalue
    exact (note_keeps args w index letter).trans (.of_eq rfl rfl)
  · exact .of_eq he hs

/-- A walk that ends well keeps what is written. -/
theorem runs_keeps {args : WalkArgs} {w w' : Walk} {out : List Emit}
    (h : Runs (walkStep args) w out (.ok w')) : Keeps w w' :=
  walk_invariant (P := Keeps w) (fun _ _ _ _ hv => hv.trans (.of_eq rfl rfl))
    (fun _ _ _ _ _ hact hv => hv.trans (act_keeps hact)) h (.refl w)

end Walk

/-! ## Decoding without and with a selection -/

/-- The text a string decodes to does not decide whether it decodes. -/
theorem decodeLoop_accepts (materialize' : Bool) (output' : List UInt8) {time fuel : Nat}
    {bytes output text : List UInt8} {materialize : Bool}
    (h : decodeLoop materialize time fuel bytes output = .ok text) :
    ∃ text', decodeLoop materialize' time fuel bytes output' = .ok text' := by
  induction fuel generalizing bytes output output' with
  | zero => cases bytes <;> exact ⟨_, rfl⟩
  | succ fuel ih =>
    cases bytes with
    | nil => exact ⟨_, rfl⟩
    | cons byte rest =>
      simp only [decodeLoop] at h ⊢
      split at h
      · cases h
      next b rest' _ =>
      split at h
      · next hb => simp only [if_pos hb]; exact ih _ h
      · cases h

/-- A value that decodes for validation decodes for a query. -/
theorem decodeValue_accepts (t' : Tokens) (selected : Bool)
    {parseReal : List UInt8 → Option UInt64} {t : Tokens} {time : Nat} {encoding : Encoding}
    {letter : UInt8} {payload : List UInt8}
    {v : Option Value} (h : decodeValue parseReal t time false encoding letter payload = .ok v) :
    ∃ v', decodeValue parseReal t' time selected encoding letter payload = .ok v' := by
  cases encoding with
  | real => exact ⟨v, decodeValue_tokens (by simpa only [decodeValue] using h)⟩
  | string =>
    simp only [decodeValue] at h ⊢
    split at h
    · next hl =>
      rw [if_pos hl]
      split at h
      · cases h
      · next text htext =>
        obtain ⟨text', htext'⟩ := decodeLoop_accepts selected [] htext
        exact ⟨_, by rw [decodeString, htext']⟩
    · cases h
  | bits width =>
    simp only [decodeValue] at h ⊢
    split at h
    · cases h
    next hl =>
    rw [if_neg hl]
    split at h
    · cases h
    next hp => rw [if_neg hp]; exact ⟨_, rfl⟩
  | event | unsupported => exact ⟨v, decodeValue_tokens (by simpa only [decodeValue] using h)⟩

/-! ## Failing sources -/

namespace Tokens

/-- `u` is the whole source and `t` is `u`, or `u` cut short by an input failure. -/
def CutFrom (u t : Tokens) : Prop :=
  t.Grows u ∧ (t.fault = none → t = u)

theorem CutFrom.refl {t : Tokens} (h : t.fault = none) : CutFrom t t := ⟨.refl h, fun _ => rfl⟩

/-- The text loop has fuel for the words to come, so only the input ends it early. -/
theorem textLoop_error {fuel : Nat} {t : Tokens} {text : List UInt8} {e : Error}
    {message : String} (hfault : t.fault = some message) (hfuel : t.input.length < fuel)
    (h : textLoop fuel t text = .error e) : e = .io message := by
  induction fuel generalizing t text with
  | zero => omega
  | succ fuel ih =>
    simp only [textLoop] at h
    split at h
    · next htake =>
      cases h
      unfold take at htake
      dsimp only at htake
      split at htake
      · next hf => cases htake; rw [hfault] at hf; cases hf; rfl
      · cases htake
    next gap t' htake =>
    obtain ⟨hin, -, ht', -⟩ := take_eq htake
    have hfault' : t'.fault = some message := by rw [ht']; exact hfault
    split at h
    · next hreq =>
      cases h
      unfold required at hreq
      split at hreq
      · next hnext =>
        cases hreq
        obtain ⟨_, hf, rfl⟩ := nextInto_error hnext
        rw [hfault'] at hf
        cases hf; rfl
      · next hnext =>
        rw [(nextInto_none hnext).2.1] at hfault'
        cases hfault'
      · cases hreq
    next word t'' hreq =>
    obtain ⟨⟨used, -, -, hsame⟩, hlt⟩ := nextInto_advances (required_eq.1 hreq)
    split at h
    · cases h
    · refine ih (by rw [hsame]; exact hfault') ?_ h
      have hle : t'.input.length ≤ t.input.length := by rw [hin, List.length_append]; omega
      have := hlt rfl
      omega

/-- A source cut short by a failure fails by it, or reads the item of the whole source. -/
theorem item_cut {u t u' : Tokens} {block : Bool} {o : Option Item} {message : String}
    (hcut : CutFrom u t) (hfault : t.fault = some message) (h : u.item block = .ok (o, u')) :
    t.item block = .error (.io message) ∨
      ∃ i t', o = some i ∧ t.item block = .ok (some i, t') ∧ CutFrom u' t' := by
  cases hitem : t.item block with
  | ok p =>
    obtain ⟨o', t'⟩ := p
    have hsame : t'.fault = some message := by
      obtain ⟨⟨-, -, -, hf⟩, -⟩ := item_advances hitem
      rw [hf]; exact hfault
    cases o' with
    | none =>
      -- The end of the input is not reached before the failure.
      rw [(nextInto_none (item_none hitem)).2.1] at hfault
      cases hfault
    | some i =>
      obtain ⟨v, hv, hgrow⟩ := item_grows hcut.1 hitem
      rw [h] at hv
      cases hv
      exact .inr ⟨i, t', rfl, rfl, hgrow, fun hno => by rw [hno] at hsame; cases hsame⟩
  | error e =>
    refine .inl ?_
    have hword : ∀ {t : Tokens} {e : Error}, t.fault = some message → t.nextInto = .error e →
        e = .io message := by
      intro t e hf hnext
      obtain ⟨_, hf', rfl⟩ := nextInto_error hnext
      rw [hf] at hf'
      cases hf'; rfl
    suffices hio : e = .io message by rw [hio]
    unfold item at hitem
    split at hitem
    · next hnext =>
      cases hitem
      exact hword hfault hnext
    · cases hitem
    next word t' hnext =>
    have hfault' : t'.fault = some message := by
      obtain ⟨⟨-, -, -, hf⟩, -⟩ := nextInto_advances hnext
      rw [hf]; exact hfault
    obtain ⟨v, hnextu, hgrow⟩ := nextInto_grows hcut.1 hnext
    simp only [item, hnextu] at h
    dsimp only at hitem h
    split at hitem
    · cases hitem
    next hstamp =>
    rw [if_neg hstamp] at h
    split at hitem
    · next hdollar =>
      rw [if_pos hdollar] at h
      split at hitem
      · next hcomment =>
        rw [if_pos hcomment] at h
        split at hitem
        · next htext =>
          cases hitem
          unfold text at htext
          split at htext
          · next hloop =>
            cases htext
            exact textLoop_error hfault' (Nat.lt_succ_self _) hloop
          next raw w hloop =>
          -- The whole source reads the same bytes, and their encoding is checked alike.
          have hle : t'.input.length + 1 ≤ v.input.length + 1 := by
            obtain ⟨-, -, rest, hv, -⟩ := hgrow
            rw [hv, List.length_append]; omega
          obtain ⟨w', hloop', -⟩ := textLoop_grows hgrow hle hloop
          split at htext
          · next hutf => simp [text, hloop', hutf] at h
          · cases htext
        · cases hitem
      · cases hitem
    · next hdollar =>
      rw [if_neg hdollar] at h
      split at hitem
      · split at hitem
        · next hid =>
          cases hitem
          exact hword hfault' hid
        · next hid =>
          rw [(nextInto_none hid).2.1] at hfault'
          cases hfault'
        · cases hitem
      · cases hitem

/-- What the whole source reads, a source cut from it reads too, or it fails there. -/
theorem CutFrom.item {u t u' : Tokens} {block : Bool} {o : Option Item} (hcut : CutFrom u t)
    (h : u.item block = .ok (o, u')) :
    (∃ message, t.fault = some message ∧ t.item block = .error (.io message)) ∨
      ∃ t', t.item block = .ok (o, t') ∧ CutFrom u' t' := by
  cases hf : t.fault with
  | none =>
    have hfault : u'.fault = none := by
      obtain ⟨⟨-, -, -, hsame⟩, -⟩ := item_advances h
      rw [hsame, ← hcut.2 hf]; exact hf
    rw [hcut.2 hf]
    exact .inr ⟨u', h, .refl hfault⟩
  | some message =>
    rcases item_cut hcut hf h with hio | ⟨i, t', rfl, ht, hcut'⟩
    · exact .inl ⟨message, rfl, hio⟩
    · exact .inr ⟨t', ht, hcut'⟩

/-- At the end of the input there is no further word. -/
theorem item_end {t t' : Tokens} {block : Bool} (h : t.item block = .ok (none, t')) :
    t'.item block = .ok (none, t') ∧ t.Advances t' := by
  obtain ⟨-, hfault, ht'⟩ := nextInto_none (item_none h)
  have hagain : t'.nextInto = .ok (none, t') := by
    have hinput : t'.input = [] := by rw [ht']
    rw [nextInto_of_blank (by simp [hinput]) (by rw [ht']; exact hfault)]
    cases t'
    simp only at hinput
    simp [hinput]
  exact ⟨by simp only [item, hagain], (item_advances h).1⟩

end Tokens

/-! ## Positions of the body -/

/-- The source stands at its offset in the bytes up to `limit`. -/
def Tokens.Of (bytes : List UInt8) (limit : Nat) (t : Tokens) : Prop :=
  t = chunkTokens bytes t.offset limit

/-- Reading on stays in the bytes. -/
theorem Tokens.Of.advances {bytes : List UInt8} {limit : Nat} {t u : Tokens} (h : t.Of bytes limit)
    (hadv : t.Advances u) : u.Of bytes limit := by
  obtain ⟨used, hin, hoff, hfault⟩ := hadv
  unfold Tokens.Of at h ⊢
  have hwhole : (bytes.drop t.offset).take (limit - t.offset) = used ++ u.input := by
    rw [← hin, h]; rfl
  have hinput : u.input = (bytes.drop u.offset).take (limit - u.offset) := by
    rw [hoff, ← List.drop_drop, Nat.sub_add_eq, ← List.drop_take, hwhole, List.drop_left]
  cases u with
  | mk input offset fault =>
    simp only at hinput hfault
    rw [h] at hfault
    rw [hinput, hfault]
    rfl

/-- The source after a seek is the rest of the file. -/
theorem tokensFrom_eq (bytes : List UInt8) (offset : Nat) :
    tokensFrom bytes .none offset = chunkTokens bytes offset bytes.length := by
  have htake : (bytes.drop offset).take (bytes.length - offset) = bytes.drop offset :=
    List.take_of_length_le (by rw [List.length_drop])
  unfold chunkTokens
  rw [htake]
  rfl

/-- A query's source is the body's, cut short where its input fails. -/
theorem tokensFrom_cut (bytes : List UInt8) (faults : Faults) (offset : Nat) :
    (chunkTokens bytes offset bytes.length).CutFrom (tokensFrom bytes faults offset) := by
  rw [← tokensFrom_eq]
  unfold tokensFrom
  cases faults.reads with
  | none => exact .refl rfl
  | some limit =>
    refine ⟨⟨rfl, rfl, (bytes.drop offset).drop (limit.1 - offset), ?_, nofun⟩, nofun⟩
    exact (List.take_append_drop _ _).symm

/-- The histories written in a validating walk have the encodings of the reader. -/
structure Fits (r : Reader) (w : Walk) : Prop where
  written : ∀ i, w.seen.getD i false = true →
    r.encodings.getD i .unsupported = w.encodings.getD i .unsupported
  length : r.encodings.length = w.encodings.length
  seen : w.seen.length = w.encodings.length

/-- Of two states of a validating walk, the earlier one fits when the later one does. -/
theorem Fits.of_keeps {r : Reader} {v w : Walk} (hkeep : v.Keeps w) (h : Fits r w) : Fits r v := by
  refine ⟨fun i hi => ?_, h.length.trans hkeep.encodings, ?_⟩
  · obtain ⟨hw, he⟩ := hkeep.written i hi
    rw [h.written i hw, he]
  · rw [← hkeep.seen, ← hkeep.encodings, h.seen]

/-- A validating walk standing at `p`, in the bytes up to `limit`, ends well, and the encodings of
the reader fit it. -/
def Accepted (r : Reader) (limit : Nat) (p : Position) : Prop :=
  ∃ (v fin : Walk) (out : List Emit), Runs (walkStep r.openArgs) v out (.ok fin) ∧
    v.tokens = chunkTokens r.bytes p.offset limit ∧ v.time = p.time ∧ v.block = p.block ∧ Fits r fin

/-! ## A query follows the validation -/

/-- The position of a walk at the top of the loop. -/
def Walk.here (w : Walk) : Position := ⟨w.tokens.offset, w.time, w.block⟩

/-- A query walk stands where the validating walk stands, and uses the final encodings. -/
structure Follows (r : Reader) (v q : Walk) : Prop where
  time : q.time = v.time
  block : q.block = v.block
  tokens : v.tokens.CutFrom q.tokens
  encodings : q.encodings = r.encodings
  position : q.position = none

/-- The encoding a written history has at the end is the one it is decoded with now. -/
theorem Fits.encoding {r : Reader} {args : WalkArgs} (hval : args.selected = none) {w : Walk}
    {index : Nat} {letter : UInt8} (h : Fits r (w.note args index letter)) :
    r.encodings.getD index .unsupported =
      (w.note args index letter).encodings.getD index .unsupported := by
  by_cases hlt : index < w.seen.length
  · exact h.written index (Walk.note_seen hval w letter hlt)
  · have hseen := (Walk.note_keeps args w index letter).seen
    have hout : (w.note args index letter).encodings.length ≤ index := by rw [← h.seen]; omega
    rw [List.getD_eq_getElem?_getD, List.getD_eq_getElem?_getD,
      List.getElem?_eq_none (h.length ▸ hout), List.getElem?_eq_none hout]

/-- A body timestamp fits 64 bits, so no walk to `u64::MAX` leaves at one. -/
theorem integer_le {digits : List UInt8} {n : Nat} (h : integer digits = .ok n) : n ≤ u64Max := by
  unfold integer at h
  split at h
  · dsimp only at h
    split at h
    · cases h
    split at h
    · next hlt => cases h; unfold u64Max; omega
    · cases h
  · cases h

/-- Where validation goes on after an item, a query that stands there goes on too, or leaves at a
timestamp past its end. -/
theorem act_follows {r : Reader} {signals : List Signal} {stop offset : Nat} {v q v' : Walk}
    {i : Item} {recs : List Record} (hfits : Fits r v') (hf : Follows r v q)
    (h : Walk.act r.openArgs offset v i = .next v' recs) :
    (∃ q' recs', Walk.act (r.queryArgs signals stop) offset q i = .next q' recs' ∧
      q'.time = v'.time ∧ q'.block = v'.block ∧ q'.encodings = r.encodings) ∨
    ∃ q', Walk.act (r.queryArgs signals stop) offset q i = .leave q' := by
  obtain ⟨htime, hblock, -, henc, -⟩ := hf
  cases i with
  | stamp digits =>
    simp only [Walk.act, Walk.stamp, htime, hblock] at h ⊢
    split at h
    · cases h
    next hb =>
    rw [if_neg hb]
    split at h
    · cases h
    next n hn =>
    split at h
    · cases h
    next hlt =>
    rw [if_neg hlt]
    split at h
    · cases h
    cases h
    by_cases hstop : (r.queryArgs signals stop).stop < n
    · rw [if_pos hstop]; exact .inr ⟨_, rfl⟩
    · rw [if_neg hstop]; exact .inl ⟨_, _, rfl, rfl, rfl, henc⟩
  | command word =>
    simp only [Walk.act, Walk.command, hblock] at h ⊢
    split at h
    · next hopen => cases h; rw [if_pos hopen]; exact .inl ⟨_, _, rfl, htime, rfl, henc⟩
    next hopen =>
    rw [if_neg hopen]
    split at h
    · next hclose => cases h; rw [if_pos hclose]; exact .inl ⟨_, _, rfl, htime, rfl, henc⟩
    · cases h
  | comment text =>
    cases h
    exact .inl ⟨_, _, rfl, htime, hblock, henc⟩
  | value letter payload id =>
    simp only [Walk.act] at h ⊢
    obtain ⟨index, x, hlookup, hx, rfl⟩ := Walk.value_next h
    -- Validation selects nothing, and decodes with the encoding the history ends with.
    have hfinal : r.encodings.getD index .unsupported =
        (v.note r.openArgs index letter).encodings.getD index .unsupported :=
      Fits.encoding rfl ⟨hfits.written, hfits.length, hfits.seen⟩
    obtain ⟨y, hy⟩ := decodeValue_accepts q.tokens (Walk.picks (r.queryArgs signals stop) index) hx
    obtain ⟨recs', hval⟩ := Walk.value_accepts (r.queryArgs signals stop) offset q hlookup (by
      show decodeValue r.parseReal q.tokens q.time _ (q.encodings.getD index .unsupported) letter
        payload = .ok y
      rw [henc, hfinal, htime]
      exact hy)
    exact .inl ⟨_, recs', hval, htime, hblock, henc⟩

/-- The top of the loop of an accepted walk is an accepted position. -/
theorem Accepted.of_walk {r : Reader} {limit : Nat} {v fin : Walk} {out : List Emit}
    (hrun : Runs (walkStep r.openArgs) v out (.ok fin)) (hof : v.tokens.Of r.bytes limit)
    (hfits : Fits r fin) : Accepted r limit v.here :=
  ⟨v, fin, out, hrun, hof, rfl, rfl, hfits⟩

/-- The end of the input of an accepted walk is an accepted position. -/
theorem Accepted.of_end {r : Reader} {limit : Nat} {v fin : Walk} {tokens : Tokens} {last : Nat}
    (hitem : v.tokens.item v.block = .ok (none, tokens))
    (hfin : Walk.finish { v with tokens := tokens, lastProgress := last } = .ok fin)
    (hof : v.tokens.Of r.bytes limit) (hfits : Fits r fin) :
    Accepted r limit ⟨tokens.offset, v.time, v.block⟩ := by
  obtain ⟨hitem', hadv⟩ := Tokens.item_end hitem
  obtain ⟨hblock, hfin'⟩ := Walk.finish_eq hfin
  have hstep : walkStep r.openArgs { v with tokens := tokens } =
      ([], .stop (Walk.finish { v with tokens := tokens })) := by
    rw [walkStep_plain rfl]
    exact walkTurn_end _ [] hitem'
  rw [Walk.finish_ok (w := { v with tokens := tokens }) hblock] at hstep
  rw [hfin'] at hfits
  exact ⟨_, _, [], .stop hstep, hof.advances hadv, rfl, rfl, hfits.written, hfits.length,
    hfits.seen⟩

/-- One step of a query over an accepted walk: it goes on with the walk and hands out its position,
it fails as its input does, or it ends at an accepted position. -/
theorem follow_step {r : Reader} {limit : Nat} {signals : List Signal} {stop : Nat} {v q fin : Walk}
    {out outQ : List Emit} {o : Outcome Walk (Except Error Walk)}
    (hrun : Runs (walkStep r.openArgs) v out (.ok fin)) (hof : v.tokens.Of r.bytes limit)
    (hfits : Fits r fin) (hf : Follows r v q)
    (hq : walkStep (r.queryArgs signals stop) q = (outQ, o)) :
    (∃ q' outV v', o = .next q' ∧ walkStep r.openArgs v = (outV, .next v') ∧ Follows r v' q' ∧
      q'.tokens.fault = q.tokens.fault ∧ ∀ rec ∈ records outQ, rec.position = v.here) ∨
    (∃ message, records outQ = [] ∧ q.tokens.fault = some message ∧
      o = .stop (.error (.io message))) ∨
    ∃ w p, records outQ = [] ∧ o = .stop (.ok w) ∧ w.position = some p ∧ Accepted r limit p := by
  have hhere := Accepted.of_walk hrun hof hfits
  obtain ⟨marks, last, hmarks, hstep⟩ := walkStep_eq (r.queryArgs signals stop) q
  rw [hstep] at hq
  have hio : ∀ message, q.tokens.fault = some message →
      q.tokens.item q.block = .error (.io message) →
      ∃ message, records outQ = [] ∧ q.tokens.fault = some message ∧
        o = .stop (.error (.io message)) := by
    intro message hfault hitem
    rw [walkTurn, hitem] at hq
    cases hq
    exact ⟨message, hmarks, hfault, rfl⟩
  cases hrun with
  | stop hs =>
    obtain ⟨-, lastV, ⟨e, -, h⟩ | ⟨tokens, hitem, h⟩ | ⟨i, tokens, w', -, hact, h⟩ |
      ⟨i, tokens, e, -, -, h⟩⟩ := walkStep_stop hs
    · cases h
    · -- The body ends here.
      rcases hf.tokens.item hitem with ⟨message, hfault, hfail⟩ | ⟨t', hitem', hcut⟩
      · exact .inr (.inl (hio message hfault (hf.block ▸ hfail)))
      · rw [← hf.block] at hitem'
        have hend := Accepted.of_end hitem h.symm hof hfits
        have hblock : q.block = false := hf.block.trans (Walk.finish_eq h.symm).1
        rw [walkTurn_end _ (w := { q with lastProgress := last }) marks hitem',
          Walk.finish_ok (w := { q with tokens := t', lastProgress := last }) hblock] at hq
        cases hq
        refine .inr (.inr ⟨_, ⟨t'.offset, q.time, q.block⟩, hmarks, rfl, ?_, ?_⟩)
        · simp [hf.position]
        · rw [hf.time, hf.block, ← hcut.1.1]; exact hend
    · obtain ⟨digits, n, -, hn, hlt, -⟩ := Walk.act_leave hact
      exact absurd (integer_le hn) (by simpa [Reader.openArgs, Reader.args] using hlt)
    · cases h
  | next hs htail =>
    obtain ⟨i, tokens, lastV, hitem, hact⟩ := walkStep_next hs
    have hfits' := hfits.of_keeps (Walk.runs_keeps htail)
    rcases hf.tokens.item hitem with ⟨message, hfault, hfail⟩ | ⟨t', hitem', hcut⟩
    · exact .inr (.inl (hio message hfault (hf.block ▸ hfail)))
    rw [← hf.block] at hitem'
    have hoff : q.tokens.offset = v.tokens.offset := hf.tokens.1.1.symm
    rw [walkTurn] at hq
    simp only [hitem', hoff] at hq
    have hread : Follows r { v with tokens := tokens, lastProgress := lastV }
        { q with tokens := t', lastProgress := last } :=
      ⟨hf.time, hf.block, hcut, hf.encodings, hf.position⟩
    rcases act_follows hfits' hread hact with
      ⟨q', recs', hactq, htime, hblock, hencq⟩ | ⟨q', hactq⟩
    · rw [hactq] at hq
      cases hq
      have hgoes := Walk.act_next hactq
      refine .inl ⟨q', _, _, rfl, hs, ⟨htime, hblock, ?_, hencq, ?_⟩, ?_, ?_⟩
      · rw [hgoes.tokens, (Walk.act_next hact).tokens]; exact hcut
      · rw [hgoes.position]; exact hf.position
      · obtain ⟨⟨-, -, -, hfault⟩, -⟩ := Tokens.item_advances hitem'
        rw [hgoes.tokens]; exact hfault
      · intro rec hrec
        rw [records_append, hmarks, records_map_record, List.nil_append] at hrec
        rcases hgoes.records with hnil | ⟨index, x, hone, -⟩
        · rw [hnil] at hrec; cases hrec
        · rw [hone, List.mem_singleton] at hrec
          rw [hrec]
          show (⟨_, q.time, q.block⟩ : Position) = _
          rw [hf.time, hf.block]; rfl
    · rw [hactq] at hq
      cases hq
      obtain ⟨digits, n, -, -, hlt, hle, hb, hq'⟩ := Walk.act_leave hactq
      have hleave : Walk.LeavesAt (r.queryArgs signals stop) v.tokens.offset
          { q with tokens := t', lastProgress := last } n q' := ⟨hlt, hle, hb, hq'⟩
      refine .inr (.inr ⟨q', v.here, hmarks, by rw [hleave.finish], ?_, hhere⟩)
      rw [hq']
      show some (⟨_, q.time, q.block⟩ : Position) = _
      rw [hf.time, hf.block]; rfl

/-- A query over an accepted walk ends well or fails as its input does, and every position it hands
out is accepted. -/
theorem query_follows {r : Reader} {limit : Nat} {signals : List Signal} {stop : Nat}
    {v q fin : Walk} {out outQ : List Emit} {result : Except Error Walk}
    (hrun : Runs (walkStep r.openArgs) v out (.ok fin)) (hof : v.tokens.Of r.bytes limit)
    (hfits : Fits r fin) (hf : Follows r v q)
    (hq : Runs (walkStep (r.queryArgs signals stop)) q outQ result) :
    (∀ rec ∈ records outQ, Accepted r limit rec.position) ∧
      ((∃ message, q.tokens.fault = some message ∧ result = .error (.io message)) ∨
        ∃ w p, result = .ok w ∧ w.position = some p ∧ Accepted r limit p) := by
  induction hq generalizing v out with
  | stop hs =>
    rcases follow_step hrun hof hfits hf hs with
      ⟨q', outV, v', ho, -⟩ | ⟨message, hnil, hfault, ho⟩ | ⟨w, p, hnil, ho, hp⟩
    · cases ho
    · cases ho; rw [hnil]; exact ⟨nofun, .inl ⟨message, hfault, rfl⟩⟩
    · cases ho; rw [hnil]; exact ⟨nofun, .inr ⟨w, p, rfl, hp⟩⟩
  | next hs _ ih =>
    rcases follow_step hrun hof hfits hf hs with
      ⟨q', outV, v', ho, hsv, hf', hfault, hrecs⟩ | ⟨message, -, -, ho⟩ | ⟨w, p, -, ho, -⟩
    · cases ho
      obtain ⟨tail, -, hrun'⟩ := (Steps.single hsv).rest hrun
      obtain ⟨i, tokens, last, hitem, hact⟩ := walkStep_next hsv
      have hof' : v'.tokens.Of r.bytes limit := by
        rw [(Walk.act_next hact).tokens]
        exact hof.advances (Tokens.item_advances hitem).1
      obtain ⟨hpos, hres⟩ := ih hrun' hof' hf'
      rw [hfault] at hres
      refine ⟨fun rec hrec => ?_, hres⟩
      rw [records_append, List.mem_append] at hrec
      rcases hrec with hrec | hrec
      · rw [hrecs rec hrec]; exact .of_walk hrun hof hfits
      · exact hpos rec hrec
    · cases ho
    · cases ho

/-- The body start of a body that opened is accepted. -/
theorem Accepted.bodyStart {r : Reader} {o : Opened} (h : r.openSerial = .ok o) :
    Accepted (r.opened o) r.bytes.length (r.opened o).bodyStart := by
  obtain ⟨out, result, hrun⟩ := walk_total r.openArgs
    (r.walk (tokensFrom r.bytes .none r.body) true none)
  unfold Reader.openSerial at h
  rw [Reader.validate_eq hrun] at h
  split at h
  · cases h
  · next fin =>
    cases h
    have hkeep := Walk.runs_keeps hrun
    refine ⟨_, fin, out, hrun, tokensFrom_eq _ _, rfl, rfl, fun _ _ => rfl, rfl, ?_⟩
    rw [hkeep.seen, hkeep.encodings]
    simp [Reader.walk]

/-- A read from an accepted position delivers records at accepted positions, and ends well at one or
fails as its input does. -/
theorem Accepted.delivers {r : Reader} {p : Position} (h : Accepted r r.bytes.length p)
    {faults : Faults}
    {signals : List Signal} {stop : Nat} {recs : List Record} {result : Except Error Walk}
    (hd : r.Delivers faults signals stop p recs result) :
    (∀ rec ∈ recs, Accepted r r.bytes.length rec.position) ∧
      ((∃ limit message, faults.reads = some (limit, message) ∧ result = .error (.io message)) ∨
        ∃ w p', result = .ok w ∧ w.position = some p' ∧ Accepted r r.bytes.length p') := by
  obtain ⟨v, fin, out, hrun, htok, htime, hblock, hfits⟩ := h
  obtain ⟨outQ, rfl, hq⟩ := hd
  have hof : v.tokens.Of r.bytes r.bytes.length := by rw [htok]; rfl
  have hf : Follows r v (r.walk (tokensFrom r.bytes faults p.offset) false (some p)) :=
    ⟨htime.symm, hblock.symm, htok ▸ tokensFrom_cut r.bytes faults p.offset, rfl, rfl⟩
  obtain ⟨hrecs, ⟨message, hfault, hres⟩ | hok⟩ := query_follows hrun hof hfits hf hq
  · refine ⟨hrecs, .inl ?_⟩
    have hfault' : (tokensFrom r.bytes faults p.offset).fault = some message := hfault
    unfold tokensFrom at hfault'
    cases hreads : faults.reads with
    | none => rw [hreads] at hfault'; cases hfault'
    | some limit => rw [hreads] at hfault'; cases hfault'; exact ⟨limit.1, limit.2, rfl, hres⟩
  · exact ⟨hrecs, .inr hok⟩

/-! ## Opening validates every later read -/

/-- The positions a reader hands out: its body start, where it delivered a record to some visitor,
and where a read it went through to the end left it. -/
inductive Produced (r : Reader) : Position → Prop
  | start : Produced r r.bodyStart
  | delivered {p : Position} {faults : Faults} {signals : List Signal} {stop : Nat}
      {recs : List Record} {result : Except Error Walk} {rec : Record} : Produced r p →
      r.Delivers faults signals stop p recs result → rec ∈ recs → Produced r rec.position
  | left {σ B : Type} {p p' : Position} {faults : Faults} {signals : List Signal} {stop : Nat}
      {visitor : σ → Record → σ × ControlFlow B} {c : σ} : Produced r p →
      (r.serialRead faults signals stop (some p) visitor c).1.position = some p' → Produced r p'

/-- Every position a reader hands out is accepted. -/
theorem Produced.accepted {r : Reader} {p : Position}
    (hstart : Accepted r r.bytes.length r.bodyStart)
    (h : Produced r p) : Accepted r r.bytes.length p := by
  induction h with
  | start => exact hstart
  | delivered _ hd hrec ih => exact (ih.delivers hd).1 _ hrec
  | @left σ B p p' faults signals stop visitor c _ hleft ih =>
    obtain ⟨recs, result, hd⟩ := r.delivers_total faults signals stop p
    cases hseek : faults.seek with
    | some message =>
      have hnone : (r.serialRead faults signals stop (some p) visitor c).1.position = none := by
        unfold Reader.serialRead
        simp only [hseek]
      rw [hnone] at hleft
      cases hleft
    | none =>
      rw [Reader.serialRead_eq hseek hd] at hleft
      obtain ⟨w, rfl, hw⟩ := Reader.ended_position hleft
      obtain ⟨-, ⟨_, _, _, he⟩ | ⟨w', q, he, hq, hacc⟩⟩ := ih.delivers hd
      · cases he
      · cases he
        rw [hq] at hw
        exact Option.some.inj hw ▸ hacc

section
variable {σ B : Type*}

/-- Opening a body without chunks validates it for every later read: whatever is selected, wherever
the read ends and from whichever position of this reader it starts, it returns well or with the
failure of its input. -/
theorem readFrom_validated (h : Header) (parseReal : List UInt8 → Option UInt64)
    (bytes : List UInt8) {o : Opened} (hopen : (h.reader parseReal bytes).openSerial = .ok o)
    (position : Option Position)
    (hposition : ∀ p, position = some p → Produced ((h.reader parseReal bytes).opened o) p)
    (faults : Faults)
    (parallelFull : ParallelSource → Option (Reader × σ × Except Error (ControlFlow B)))
    (signals : List Signal) (stop : Nat) (visitor : σ → Record → σ × ControlFlow B) (c : σ) :
    (∃ flow, (((h.reader parseReal bytes).opened o).readFrom faults parallelFull signals stop
      position visitor c).2.2 = .ok flow) ∨
    ∃ message, (faults.seek = some message ∨ ∃ limit, faults.reads = some (limit, message)) ∧
      (((h.reader parseReal bytes).opened o).readFrom faults parallelFull signals stop
        position visitor c).2.2 = .error (.io message) := by
  set r := (h.reader parseReal bytes).opened o with hr
  have hstart : Accepted r r.bytes.length r.bodyStart := Accepted.bodyStart hopen
  have hserial : r.readFrom faults parallelFull signals stop position visitor c =
      r.serialRead faults signals stop position visitor c := by
    have hnone : r.parallel = none := rfl
    unfold Reader.readFrom
    rw [hnone]
    cases position <;> rfl
  rw [hserial]
  have hacc : Accepted r r.bytes.length (position.getD r.bodyStart) := by
    cases position with
    | none => exact hstart
    | some p => exact (hposition p rfl).accepted hstart
  obtain ⟨recs, result, hd⟩ := r.delivers_total faults signals stop (position.getD r.bodyStart)
  cases hseek : faults.seek with
  | some message =>
    refine .inr ⟨message, .inl rfl, ?_⟩
    unfold Reader.serialRead
    simp only [hseek]
  | none =>
    cases hend : (r.serialRead faults signals stop position visitor c).2.2 with
    | ok flow => exact .inl ⟨flow, rfl⟩
    | error e =>
      rw [Reader.serialRead_eq hseek hd] at hend
      obtain rfl := Reader.ended_error hend
      obtain ⟨-, ⟨limit, message, hreads, he⟩ | ⟨w, p, he, -⟩⟩ := hacc.delivers hd
      · cases he; exact .inr ⟨message, .inr ⟨limit, hreads⟩, rfl⟩
      · cases he

/-- A declared real whose first value is a string: the body opens, and a read that selects the
string history goes well from the body start. -/
theorem readFrom_validated_string :
    let h : Header := ⟨0, [(ascii "!", 0)], [], [.real]⟩
    let bytes := ascii "#1\nsab !\n#4\nscd !\n"
    let o : Opened := ⟨some ⟨1, 4⟩, [], [.string]⟩
    let read := ((h.reader (fun _ => none) bytes).opened o).readFrom .none (fun _ => none)
      [⟨0, 0, false, .string, .string, 0⟩] 3 (some ⟨0, 0, false⟩)
      (fun (seen : List Value) record => (seen ++ [record.value], .continue (B := Unit))) []
    (∃ flow, read.2.2 = .ok flow) ∨
      ∃ message, (Faults.none.seek = some message ∨
        ∃ limit, Faults.none.reads = some (limit, message)) ∧
        read.2.2 = .error (.io message) :=
  readFrom_validated ⟨0, [(ascii "!", 0)], [], [.real]⟩ (fun _ => none)
    (ascii "#1\nsab !\n#4\nscd !\n") (o := ⟨some ⟨1, 4⟩, [], [.string]⟩) (by decide +kernel) _
    (fun p hp => by cases hp; exact .start) .none (fun _ => none) _ 3 _ []

end

end Ondas.Vcd
