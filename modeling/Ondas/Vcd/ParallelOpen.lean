import Ondas.Vcd.Chunks

/-!
# Opening in parallel

`parallelOpenWithCuts` validates every chunk of a body from a fresh state and merges what the chunks
saw. The merge gives up where the chunks do not join: a chunk after the first without a timestamp,
time going back over a cut, a declared real read as a number in one chunk and as a string in
another. When it succeeds, the serial walk succeeds with the same span, comments and encodings
(`parallelOpenWithCuts_serial`), by a simulation that carries the serial walk through one chunk
after another (`InChunk`).
-/

namespace Ondas.Vcd

open Library

/-! ## The merge -/

/-- What the chunks merged so far saw. -/
structure Merge where
  span : Option TimeSpan
  comments : List (List UInt8)
  sawReal : List Bool
  sawString : List Bool

/-- The span of a chunk after the span of the chunks before it; time may not go back. -/
def joinSpan : Option TimeSpan → Option TimeSpan → Option (Option TimeSpan)
  | previous, none => some previous
  | none, some next => some (some next)
  | some previous, some next =>
    if next.first < previous.last then none else some (some ⟨previous.first, next.last⟩)

/-- A chunk wrote a declared real history, which it ended up reading as `encoding`. -/
def readsAs (declared : List Encoding) (part : Walk) (encoding : Encoding) (index : Nat) : Bool :=
  part.seen.getD index false && declared.getD index .unsupported == .real &&
    part.encodings.getD index .unsupported == encoding

/-- Merge one chunk; `index` is its number. -/
def Merge.part (declared : List Encoding) (m : Merge) (index : Nat) (part : Walk) : Option Merge :=
  if 0 < index && part.span.isNone then none
  else
    match joinSpan m.span part.span with
    | none => none
    | some span =>
      some { span := span
             comments := m.comments ++ part.comments
             sawReal := m.sawReal.mapIdx fun i saw => saw || readsAs declared part .real i
             sawString := m.sawString.mapIdx fun i saw => saw || readsAs declared part .string i }

/-- The loop over the chunks, in order. -/
def mergeLoop (declared : List Encoding) : Nat → Merge → List (Except Error Walk) → Option Merge
  | _, m, [] => some m
  | _, _, .error _ :: _ => none
  | index, m, .ok part :: parts =>
    match m.part declared index part with
    | none => none
    | some m => mergeLoop declared (index + 1) m parts

/-- The merge before the first chunk. -/
def Merge.start (declared : List Encoding) : Merge :=
  { span := none
    comments := []
    sawReal := List.replicate declared.length false
    sawString := List.replicate declared.length false }

/-- Some history was read as a number in one chunk and as a string in another. -/
def Merge.conflict (m : Merge) : Bool :=
  (m.sawReal.zip m.sawString).any fun saw => saw.1 && saw.2

/-- The declared encodings, with strings where some chunk read strings. -/
def Merge.encodings (declared : List Encoding) (m : Merge) : List Encoding :=
  declared.mapIdx fun i encoding => if m.sawString.getD i false then .string else encoding

/-- `parallel_open_with_cuts`. -/
def Reader.parallelOpenWithCuts (r : Reader) (cuts : List Nat) : Option Opened :=
  let parts := (windows cuts).map fun range => r.validate (chunkTokens r.bytes range.1 range.2)
  match mergeLoop r.encodings 0 (.start r.encodings) parts with
  | none => none
  | some m =>
    if m.conflict then none else some ⟨m.span, m.comments, m.encodings r.encodings⟩

/-! ## Choosing the cuts -/

/-- What the system answers while a file is opened in parallel: how many threads there are, how many
bytes each probe reads, and whether the file is shared and the threads start. -/
structure OpenEnv where
  parallelism : Option Nat
  readAt : Nat → Option Nat
  shares : Bool

/-- The position of the first `\n#`. -/
def findStamp : List UInt8 → Option Nat
  | a :: b :: rest =>
    if a = 10 && b = 35 then some 0 else (findStamp (b :: rest)).map (· + 1)
  | _ => none

/-- The loop of `parallel_open` that probes for cuts, after the cut `last`; the end of the file is
the last cut. -/
def Reader.cutLoop (r : Reader) (env : OpenEnv) (workers : Nat) : Nat → List Nat → Option (List Nat)
  | _, [] => some [r.bytes.length]
  | last, index :: rest =>
    let target := r.body + (r.bytes.length - r.body) / workers * index
    let limit := min (r.bytes.length - target) (1024 * 1024)
    match env.readAt index with
    | none => none
    | some count =>
      match findStamp ((r.bytes.drop target).take (min count limit)) with
      | none => none
      | some newline =>
        let cut := target + newline + 1
        if cut ≤ last then none
        else (r.cutLoop env workers cut rest).map fun cuts => cut :: cuts

/-- `parallel_open`: the opened body and its chunks. -/
def Reader.parallelOpen (r : Reader) (env : OpenEnv) : Option (Opened × ParallelSource) :=
  if r.bytes.length < r.body then none
  else
    match env.parallelism with
    | none => none
    | some parallelism =>
      let workers := min parallelism ((r.bytes.length - r.body) / (32 * 1024 * 1024))
      if workers < 2 then none
      else
        match r.cutLoop env workers r.body (List.range' 1 (workers - 1)) with
        | none => none
        | some cuts =>
          if env.shares then
            match r.parallelOpenWithCuts (r.body :: cuts) with
            | none => none
            | some o => some (o, ⟨r.body :: cuts, (o.span.map TimeSpan.last).getD 0⟩)
          else none

/-- The end of `Reader::open`: the body of a file is opened in parallel, or else walked serially. -/
def Reader.openBody (r : Reader) (file : Option OpenEnv) : Except Error (Reader × Opened) :=
  match file.bind r.parallelOpen with
  | some (o, source) => .ok ({ r with encodings := o.encodings, parallel := some source }, o)
  | none =>
    match r.openSerial with
    | .error e => .error e
    | .ok o => .ok (r.opened o, o)

/-! ## Noting a write, entry by entry -/

namespace Walk

/-- The encoding of a history after a write is noted. -/
theorem note_encoding {args : WalkArgs} (hval : args.selected = none) (w : Walk) (index : Nat)
    (letter : UInt8) (i : Nat) :
    (w.note args index letter).encodings.getD i .unsupported =
      if i = index ∧ letter = 115 ∧ w.encodings.getD index .unsupported = .real ∧
          w.seen.getD index false = false then .string
      else w.encodings.getD i .unsupported := by
  simp only [note, hval]
  split
  · next hconv =>
    simp only [Bool.and_eq_true, decide_eq_true_eq, beq_iff_eq, Bool.not_eq_true'] at hconv
    obtain ⟨⟨rfl, hreal⟩, hseen⟩ := hconv
    have hlt : index < w.encodings.length := by
      by_contra hout
      rw [List.getD_eq_getElem?_getD, List.getElem?_eq_none (by omega)] at hreal
      cases hreal
    by_cases hi : i = index
    · subst hi
      rw [if_pos ⟨rfl, rfl, hreal, hseen⟩, List.getD_eq_getElem?_getD, List.getElem?_set_self hlt]
      rfl
    · rw [if_neg (fun h => hi h.1), List.getD_eq_getElem?_getD,
        List.getElem?_set_ne (fun h => hi h.symm), ← List.getD_eq_getElem?_getD]
  · next hconv =>
    rw [if_neg]
    rintro ⟨-, rfl, hreal, hseen⟩
    exact hconv (by rw [hreal, hseen]; rfl)

/-- The histories written after a write is noted. -/
theorem note_written {args : WalkArgs} (hval : args.selected = none) (w : Walk) (index : Nat)
    (letter : UInt8) (i : Nat) :
    (w.note args index letter).seen.getD i false =
      (w.seen.getD i false || (decide (i = index) && decide (index < w.seen.length))) := by
  simp only [note, hval, List.getD_eq_getElem?_getD, List.getElem?_set]
  by_cases hi : index = i
  · subst hi
    by_cases hlt : index < w.seen.length
    · simp [hlt]
    · simp [hlt]
  · simp [hi, Ne.symm hi]

end Walk

/-! ## The span and the time of a validating walk -/

/-- The time of a walk from a fresh state is the end of its span. -/
def Walk.Spanned (w : Walk) : Prop := w.time = (w.span.map TimeSpan.last).getD 0

/-- Acting on an item keeps the time at the end of the span. -/
theorem Walk.act_spanned {r : Reader} {offset : Nat} {w w' : Walk} {i : Item} {recs : List Record}
    (h : Walk.act r.openArgs offset w i = .next w' recs) (hw : w.Spanned) : w'.Spanned := by
  cases i with
  | stamp digits =>
    obtain ⟨n, -, -, -, -, -, rfl⟩ := stamp_next h
    rfl
  | command word =>
    simp only [act, command] at h
    split at h
    · cases h; exact hw
    split at h
    · cases h; exact hw
    · cases h
  | comment text => cases h; exact hw
  | value letter payload id =>
    obtain ⟨index, ov, -, -, rfl⟩ := value_next h
    unfold Spanned at hw ⊢
    show w.time = _
    rw [hw]
    cases w.span <;> rfl

/-- A validating walk from a fresh state ends with its time at the end of its span. -/
theorem Walk.runs_spanned {r : Reader} {w w' : Walk} {out : List Emit}
    (h : Runs (walkStep r.openArgs) w out (.ok w')) (hw : w.Spanned) : w'.Spanned :=
  walk_invariant (fun _ _ _ _ hv => hv) (fun _ _ _ _ _ hact hv => act_spanned hact hv) h hw

/-- The spans of two neighbours, joined. -/
def spanAppend : Option TimeSpan → Option TimeSpan → Option TimeSpan
  | previous, none => previous
  | none, some next => some next
  | some previous, some next => some ⟨previous.first, next.last⟩

/-- A join that succeeds is the joined span, and time does not go back over it. -/
theorem joinSpan_eq {previous next joined : Option TimeSpan}
    (h : joinSpan previous next = some joined) :
    joined = spanAppend previous next ∧
      ∀ p n, previous = some p → next = some n → p.last ≤ n.first := by
  cases previous with
  | none => cases next <;> cases h <;> exact ⟨rfl, nofun⟩
  | some p =>
    cases next with
    | none => cases h; exact ⟨rfl, nofun⟩
    | some n =>
      simp only [joinSpan] at h
      split at h
      · cases h
      · next hlt => cases h; exact ⟨rfl, fun _ _ hp hn => by cases hp; cases hn; omega⟩

/-! ## The serial walk inside a chunk -/

/-- The serial walk `s` inside a chunk that a fresh walk `c` goes through; `base` is the serial walk
at the start of the chunk. -/
structure Alongside (base c s : Walk) : Prop where
  block : s.block = c.block
  time : s.time = c.time
  comments : s.comments = base.comments ++ c.comments
  span : s.span = spanAppend base.span c.span
  started : base.span = none ∨ c.span.isSome = true
  written : ∀ i, s.seen.getD i false = (base.seen.getD i false || c.seen.getD i false)
  encodings : ∀ i, s.encodings.getD i .unsupported =
    if base.seen.getD i false then base.encodings.getD i .unsupported
    else c.encodings.getD i .unsupported
  sizes : s.seen.length = c.seen.length ∧ s.encodings.length = c.encodings.length ∧
    c.seen.length = c.encodings.length

/-- Both walks stand at the same offset, and the chunk ends with `fin`. -/
structure InChunk (r : Reader) (b : Nat) (base fin c s : Walk) : Prop where
  tokens : Split r.bytes b c.tokens s.tokens
  alongside : Alongside base c s
  runs : ∃ out, Runs (walkStep r.openArgs) c out (.ok fin)

/-- A chunk reads the histories written before it as they were read before it. -/
def Consistent (base fin : Walk) : Prop :=
  ∀ i, base.seen.getD i false = true → fin.seen.getD i false = true →
    fin.encodings.getD i .unsupported = base.encodings.getD i .unsupported

/-- Acting on an item in a chunk is matched by the serial walk. -/
theorem Alongside.act {r : Reader} {offset : Nat} {base fin c s c' : Walk} {i : Item}
    {recs : List Record} (hagree : Consistent base fin) (h : Alongside base c s)
    (hact : Walk.act r.openArgs offset c i = .next c' recs)
    (hruns : ∃ out, Runs (walkStep r.openArgs) c' out (.ok fin)) :
    ∃ s' recs', Walk.act r.openArgs offset s i = .next s' recs' ∧ Alongside base c' s' := by
  obtain ⟨hblock, htime, hcomments, hspan, hstarted, hwritten, hencs, hsizes⟩ := h
  cases i with
  | stamp digits =>
    obtain ⟨n, hn, hb, hle, hstop, rfl, rfl⟩ := Walk.stamp_next hact
    refine ⟨_, _, Walk.stamp_accepts offset hn (hblock.trans hb) (htime ▸ hle) hstop, hblock, rfl,
      hcomments, ?_, .inr rfl, hwritten, hencs, hsizes⟩
    simp only [hspan]
    cases hbase : base.span <;> cases hc : c.span <;> rfl
  | command word =>
    simp only [Walk.act, Walk.command, hblock] at hact ⊢
    split at hact
    · next hopen =>
      cases hact
      rw [if_pos hopen]
      exact ⟨_, _, rfl, rfl, htime, hcomments, hspan, hstarted, hwritten, hencs, hsizes⟩
    next hopen =>
    rw [if_neg hopen]
    split at hact
    · next hclose =>
      cases hact
      rw [if_pos hclose]
      exact ⟨_, _, rfl, rfl, htime, hcomments, hspan, hstarted, hwritten, hencs, hsizes⟩
    · cases hact
  | comment text =>
    cases hact
    refine ⟨_, _, rfl, hblock, htime, ?_, hspan, hstarted, hwritten, hencs, hsizes⟩
    show s.comments ++ [text] = _
    rw [hcomments, List.append_assoc]
    rfl
  | value letter payload id =>
    simp only [Walk.act] at hact ⊢
    obtain ⟨index, x, hlookup, hx, rfl⟩ := Walk.value_next hact
    have hval : r.openArgs.selected = none := rfl
    have hcs := hwritten index
    -- The encodings after the write is noted are related as they were before it.
    have hencs' : ∀ i, (s.note r.openArgs index letter).encodings.getD i .unsupported =
        if base.seen.getD i false then base.encodings.getD i .unsupported
        else (c.note r.openArgs index letter).encodings.getD i .unsupported := by
      intro i
      rw [Walk.note_encoding hval, Walk.note_encoding hval, hencs i, hencs index, hcs]
      by_cases hi : i = index
      · subst hi
        cases hbi : base.seen.getD i false <;> simp
      · simp only [hi, false_and, if_false]
    have hwritten' : ∀ i, (s.note r.openArgs index letter).seen.getD i false =
        (base.seen.getD i false || (c.note r.openArgs index letter).seen.getD i false) := by
      intro i
      rw [Walk.note_written hval, Walk.note_written hval, hwritten i, hsizes.1, Bool.or_assoc]
    have hsizes' : (s.note r.openArgs index letter).seen.length =
          (c.note r.openArgs index letter).seen.length ∧
        (s.note r.openArgs index letter).encodings.length =
          (c.note r.openArgs index letter).encodings.length ∧
        (c.note r.openArgs index letter).seen.length =
          (c.note r.openArgs index letter).encodings.length := by
      have hs := Walk.note_keeps r.openArgs s index letter
      have hc := Walk.note_keeps r.openArgs c index letter
      rw [hs.seen, hs.encodings, hc.seen, hc.encodings]
      exact hsizes
    have hsame : (s.note r.openArgs index letter).encodings.getD index .unsupported =
        (c.note r.openArgs index letter).encodings.getD index .unsupported := by
      rw [hencs' index]
      cases hbi : base.seen.getD index false with
      | false => rfl
      | true =>
        have hlt : index < c.seen.length := by
          rw [hbi, Bool.true_or, List.getD_eq_getElem?_getD] at hcs
          by_contra hout
          rw [List.getElem?_eq_none (by rw [hsizes.1]; omega)] at hcs
          cases hcs
        obtain ⟨out, hrun⟩ := hruns
        obtain ⟨hfin, hfinenc⟩ := (Walk.runs_keeps hrun).written index
          (Walk.note_seen hval c letter hlt)
        exact (hagree index hbi hfin).symm.trans hfinenc
    obtain ⟨recs', hval'⟩ := Walk.value_accepts r.openArgs offset s hlookup (by
      show decodeValue r.parseReal s.tokens s.time _
        ((s.note r.openArgs index letter).encodings.getD index .unsupported) letter payload = .ok x
      rw [hsame, htime]
      exact decodeValue_tokens hx)
    refine ⟨_, recs', hval', hblock, htime, hcomments, ?_, .inr rfl, hwritten', hencs', hsizes'⟩
    show some (s.span.getD ⟨0, 0⟩) = spanAppend base.span (some (c.span.getD ⟨0, 0⟩))
    rw [hspan]
    rcases hstarted with hnone | hsome
    · rw [hnone]; cases c.span <;> rfl
    · obtain ⟨sp, hsp⟩ := Option.isSome_iff_exists.1 hsome
      rw [hsp]
      cases base.span <;> rfl

/-- A turn in a chunk is matched by the serial walk. -/
theorem InChunk.step {r : Reader} {b : Nat} {base fin c s c' : Walk} {out : List Emit}
    (hseal : SealedAt r.bytes b) (hagree : Consistent base fin) (h : InChunk r b base fin c s)
    (hstep : walkStep r.openArgs c = (out, .next c')) :
    ∃ out' s', walkStep r.openArgs s = (out', .next s') ∧ InChunk r b base fin c' s' := by
  obtain ⟨outc, hrun⟩ := h.runs
  obtain ⟨tail, -, hrun'⟩ := (Steps.single hstep).rest hrun
  rw [walkStep_plain rfl] at hstep ⊢
  unfold walkTurn at hstep
  split at hstep
  · cases hstep
  · cases hstep
  next i t hitem =>
  obtain ⟨u, hitem', hsplit⟩ := h.tokens.item hseal hitem
  have hoff : s.tokens.offset = c.tokens.offset := by rw [h.tokens.file]; rfl
  split at hstep
  · next v recs hact =>
    cases hstep
    obtain ⟨hblock, htime, hcomments, hspan, hstarted, hwritten, hencs, hsizes⟩ := h.alongside
    have hread : Alongside base { c with tokens := t } { s with tokens := u } :=
      ⟨hblock, htime, hcomments, hspan, hstarted, hwritten, hencs, hsizes⟩
    obtain ⟨s', recs', hact', hside⟩ := hread.act hagree hact ⟨_, hrun'⟩
    rw [← hblock] at hitem'
    rw [← hoff] at hact'
    refine ⟨_, s', walkTurn_next [] hitem' hact', ?_, hside, ⟨_, hrun'⟩⟩
    · rw [(Walk.act_next hact).tokens, (Walk.act_next hact').tokens]
      exact hsplit
  · cases hstep
  · cases hstep

/-- A chunk that ends well takes the serial walk to before its end. -/
theorem InChunk.ends {r : Reader} {b : Nat} {base fin c s : Walk} (hseal : SealedAt r.bytes b)
    (hagree : Consistent base fin) (h : InChunk r b base fin c s) :
    ∃ out s', Steps (walkStep r.openArgs) s out s' ∧ Before r.bytes b s'.tokens ∧
      s'.block = false ∧ Alongside base fin s' := by
  obtain ⟨out, hrun⟩ := h.runs
  -- A validating walk delivers nothing, so there is nothing to observe.
  have hunseen : ∀ xs : List Emit, xs.flatMap (fun _ => ([] : List Unit)) = [] := by simp
  obtain ⟨c', s', _, _, pre', _, hstop, _, hsteps, _, hin⟩ :=
    Runs.matched
      (fun c s emitted c' hrel hs => by
        obtain ⟨out', s', hs', hrel'⟩ := hrel.step hseal hagree hs
        exact ⟨out', s', hs', by rw [hunseen, hunseen], hrel'⟩) hrun h
  obtain ⟨-, last, ⟨e, -, hr⟩ | ⟨tokens, hitem, hr⟩ | ⟨i, tokens, v, -, hact, -⟩ |
    ⟨i, tokens, e, -, -, hr⟩⟩ := walkStep_stop hstop
  · cases hr
  · obtain ⟨hblock, rfl⟩ := Walk.finish_eq hr.symm
    obtain ⟨hb, htime, hcomments, hspan, hstarted, hwritten, hencs, hsizes⟩ := hin.alongside
    exact ⟨pre', s', hsteps, (hin.tokens.ends hseal hitem).1, hb.trans hblock, hb, htime, hcomments,
      hspan, hstarted, hwritten, hencs, hsizes⟩
  · obtain ⟨digits, n, -, hn, hlt, -⟩ := Walk.act_leave hact
    exact absurd (integer_le hn) (by simpa [Reader.openArgs, Reader.args] using hlt)
  · cases hr

/-! ## The chunks one after another -/

/-- Every encoding is the declared one, or string where a declared real was written. -/
structure Walk.Derived (declared : List Encoding) (w : Walk) : Prop where
  entry : ∀ i, w.encodings.getD i .unsupported = declared.getD i .unsupported ∨
    declared.getD i .unsupported = .real ∧ w.encodings.getD i .unsupported = .string ∧
      w.seen.getD i false = true
  encodings : w.encodings.length = declared.length
  seen : w.seen.length = declared.length

/-- A validating walk derives its encodings from the declared ones. -/
theorem Walk.runs_derived {r : Reader} {declared : List Encoding} {w w' : Walk} {out : List Emit}
    (h : Runs (walkStep r.openArgs) w out (.ok w')) (hw : w.Derived declared) :
    w'.Derived declared := by
  refine walk_invariant (fun _ _ _ _ hv => ⟨hv.entry, hv.encodings, hv.seen⟩)
    (fun offset v i v' recs hact hv => ?_) h hw
  have hkeep := act_keeps hact
  rcases act_tables hact with ⟨letter, payload, id, hvalue⟩ | ⟨henc, hseen⟩
  · obtain ⟨index, ov, -, -, rfl⟩ := value_next hvalue
    refine ⟨fun i => ?_, hkeep.encodings.trans hv.encodings, hkeep.seen.trans hv.seen⟩
    show (v.note r.openArgs index letter).encodings.getD i .unsupported = _ ∨
      _ ∧ (v.note r.openArgs index letter).encodings.getD i .unsupported = _ ∧
        (v.note r.openArgs index letter).seen.getD i false = true
    rw [note_encoding rfl, note_written rfl]
    split
    · next hconv =>
      obtain ⟨rfl, -, hreal, -⟩ := hconv
      have hlt : i < v.seen.length := by
        by_contra hout
        rw [List.getD_eq_getElem?_getD,
          List.getElem?_eq_none (by rw [hv.encodings, ← hv.seen]; omega)]
          at hreal
        cases hreal
      refine .inr ⟨?_, rfl, by simp [hlt]⟩
      rcases hv.entry i with hsame | ⟨hdecl, -⟩
      · rw [← hsame, hreal]
      · exact hdecl
    · rcases hv.entry i with hsame | ⟨hdecl, hstr, hseen⟩
      · exact .inl hsame
      · exact .inr ⟨hdecl, hstr, by rw [hseen, Bool.true_or]⟩
  · exact ⟨fun i => by rw [henc, hseen]; exact hv.entry i, by rw [henc]; exact hv.encodings,
      by rw [hseen]; exact hv.seen⟩

/-- The merge so far and the serial walk at the cut it reached saw the same. -/
structure Merged (declared : List Encoding) (m : Merge) (s : Walk) : Prop where
  span : s.span = m.span
  time : s.Spanned
  block : s.block = false
  comments : s.comments = m.comments
  encodings : ∀ i, s.encodings.getD i .unsupported =
    if m.sawString.getD i false then .string else declared.getD i .unsupported
  written : ∀ i, s.seen.getD i false = true → declared.getD i .unsupported = .real →
    m.sawReal.getD i false = true ∨ m.sawString.getD i false = true
  strings : ∀ i, m.sawString.getD i false = true → declared.getD i .unsupported = .real ∧
    s.seen.getD i false = true
  sizes : s.seen.length = declared.length ∧ s.encodings.length = declared.length ∧
    m.sawReal.length = declared.length ∧ m.sawString.length = declared.length

namespace Merge

/-- No history was read both ways so far. -/
def Agrees (m : Merge) : Prop :=
  ∀ i, m.sawReal.getD i false = true → m.sawString.getD i false = true → False

/-- One entry of a table after a chunk is merged. -/
theorem getD_saw {declared : List Encoding} {saw : List Bool} {part : Walk} {encoding : Encoding}
    (hlen : saw.length = declared.length) (i : Nat) :
    (saw.mapIdx fun i saw => saw || readsAs declared part encoding i).getD i false =
      (saw.getD i false || readsAs declared part encoding i) := by
  rw [List.getD_eq_getElem?_getD, List.getD_eq_getElem?_getD, List.getElem?_mapIdx]
  cases hi : saw[i]? with
  | some b => rfl
  | none =>
    have hout : declared.getD i .unsupported = .unsupported := by
      rw [List.getD_eq_getElem?_getD,
        List.getElem?_eq_none (hlen ▸ List.getElem?_eq_none_iff.1 hi)]
      rfl
    have hnot : readsAs declared part encoding i = false := by
      unfold readsAs
      rw [hout]
      simp
    rw [hnot]
    rfl

/-- What a merge of one chunk checked and did. -/
theorem part_eq {declared : List Encoding} {m m' : Merge} {index : Nat} {part : Walk}
    (h : m.part declared index part = some m') :
    (0 < index → part.span.isSome = true) ∧ joinSpan m.span part.span = some m'.span ∧
      m'.comments = m.comments ++ part.comments ∧
      m'.sawReal = m.sawReal.mapIdx (fun i saw => saw || readsAs declared part .real i) ∧
      m'.sawString = m.sawString.mapIdx (fun i saw => saw || readsAs declared part .string i) := by
  unfold Merge.part at h
  split at h
  · cases h
  next hspan =>
  split at h
  · cases h
  next span hjoin =>
  cases h
  refine ⟨fun hpos => ?_, hjoin, rfl, rfl, rfl⟩
  simp only [Bool.and_eq_true, decide_eq_true_eq, not_and] at hspan
  exact Option.isSome_iff_ne_none.2 (by simpa using hspan hpos)

/-- What was seen before the last chunks is still seen after them. -/
theorem Agrees.of_loop {declared : List Encoding} {index : Nat} {m m' : Merge}
    {parts : List (Except Error Walk)} (hreal : m.sawReal.length = declared.length)
    (hstring : m.sawString.length = declared.length)
    (h : mergeLoop declared index m parts = some m') (hm : m'.Agrees) : m.Agrees := by
  induction parts generalizing m index with
  | nil => cases h; exact hm
  | cons part parts ih =>
    cases part with
    | error e => cases h
    | ok part =>
      simp only [mergeLoop] at h
      split at h
      · cases h
      next m₁ hpart =>
      obtain ⟨-, -, -, hr, hs⟩ := part_eq hpart
      have hm₁ := ih (by rw [hr, List.length_mapIdx]; exact hreal)
        (by rw [hs, List.length_mapIdx]; exact hstring) h
      intro i hri hsi
      refine hm₁ i ?_ ?_
      · rw [hr, getD_saw hreal, hri, Bool.true_or]
      · rw [hs, getD_saw hstring, hsi, Bool.true_or]

/-- The final check finds every history that was read both ways. -/
theorem agrees_of_conflict {m : Merge} (h : m.conflict = false) : m.Agrees := by
  intro i hr hs
  unfold conflict at h
  rw [List.any_eq_false] at h
  have hget : ∀ {l : List Bool}, l.getD i false = true → l[i]? = some true := by
    intro l hl
    rw [List.getD_eq_getElem?_getD] at hl
    cases hi : l[i]? with
    | none => rw [hi] at hl; cases hl
    | some b => rw [hi] at hl; exact congrArg some hl
  refine h (true, true) (List.mem_of_getElem? (i := i) ?_) rfl
  rw [List.getElem?_zip_eq_some]
  exact ⟨hget hr, hget hs⟩

end Merge

/-- A chunk that merges without conflict reads the histories written before it as before. -/
theorem Merged.consistent {declared : List Encoding} {m m' : Merge} {index : Nat} {s fin : Walk}
    (h : Merged declared m s) (hfin : fin.Derived declared)
    (hpart : m.part declared index fin = some m') (hm : m'.Agrees) : Consistent s fin := by
  obtain ⟨-, -, -, hr, hs⟩ := Merge.part_eq hpart
  intro i hsi hfi
  have hnot := hm i
  rw [hr, hs, Merge.getD_saw h.sizes.2.2.1, Merge.getD_saw h.sizes.2.2.2] at hnot
  rw [h.encodings i]
  by_cases hreal : declared.getD i .unsupported = .real
  · have hreads : ∀ encoding, fin.encodings.getD i .unsupported = encoding →
        readsAs declared fin encoding i = true := by
      intro encoding he
      unfold readsAs
      rw [hfi, hreal, he]
      simp
    rcases hfin.entry i with hsame | ⟨-, hstr, -⟩
    · have hread := hreads .real (hsame.trans hreal)
      cases hstring : m.sawString.getD i false with
      | true => rw [hstring, hread] at hnot; simp at hnot
      | false => exact hsame
    · have hread := hreads .string hstr
      rcases h.written i hsi hreal with hw | hw
      · rw [hw, hread] at hnot; simp at hnot
      · rw [hw]; exact hstr
  · have hnostring : m.sawString.getD i false = false := by
      cases hstring : m.sawString.getD i false with
      | true => exact absurd (h.strings i hstring).1 hreal
      | false => rfl
    rw [hnostring]
    rcases hfin.entry i with hsame | ⟨hdecl, -⟩
    · exact hsame
    · exact absurd hdecl hreal

/-- What `readsAs` says. -/
theorem readsAs_iff {declared : List Encoding} {part : Walk} {encoding : Encoding} {i : Nat} :
    readsAs declared part encoding i = true ↔ part.seen.getD i false = true ∧
      declared.getD i .unsupported = .real ∧ part.encodings.getD i .unsupported = encoding := by
  unfold readsAs
  simp only [Bool.and_eq_true, beq_iff_eq, and_assoc]

/-- The serial walk after a chunk and the merge with the chunk saw the same. -/
theorem Merged.part {declared : List Encoding} {m m' : Merge} {index : Nat} {s fin s' : Walk}
    (h : Merged declared m s) (hfin : fin.Derived declared) (htime : fin.Spanned)
    (hpart : m.part declared index fin = some m') (hm : m'.Agrees) (hside : Alongside s fin s')
    (hblock : s'.block = false) : Merged declared m' s' := by
  have hconsistent := h.consistent hfin hpart hm
  obtain ⟨-, hjoin, hcomments, hr, hs⟩ := Merge.part_eq hpart
  have hreal : ∀ i, m'.sawReal.getD i false =
      (m.sawReal.getD i false || readsAs declared fin .real i) := by
    intro i; rw [hr, Merge.getD_saw h.sizes.2.2.1]
  have hstring : ∀ i, m'.sawString.getD i false =
      (m.sawString.getD i false || readsAs declared fin .string i) := by
    intro i; rw [hs, Merge.getD_saw h.sizes.2.2.2]
  have hspan : s'.span = m'.span := by
    rw [hside.span, h.span, (joinSpan_eq hjoin).1]
  refine ⟨hspan, ?_, hblock, ?_, fun i => ?_, fun i hi hdecl => ?_, fun i hi => ?_, ?_⟩
  · -- The span ends where the chunk's does, or the chunk has none and neither has moved.
    unfold Walk.Spanned at htime ⊢
    rw [hside.time, htime, hside.span]
    rcases hside.started with hnone | hsome
    · rw [hnone]; cases fin.span <;> rfl
    · obtain ⟨sp, hsp⟩ := Option.isSome_iff_exists.1 hsome
      rw [hsp]
      cases s.span <;> rfl
  · rw [hside.comments, h.comments, hcomments]
  · rw [hside.encodings i, hstring i]
    cases hold : m.sawString.getD i false with
    | true =>
      obtain ⟨-, hseen⟩ := h.strings i hold
      rw [hseen, h.encodings i, hold]
      rfl
    | false =>
      rw [Bool.false_or]
      cases hnew : readsAs declared fin .string i with
      | true =>
        obtain ⟨hseen, -, hstr⟩ := readsAs_iff.1 hnew
        split
        · next hsi => rw [← hconsistent i hsi hseen, hstr]; rfl
        · rw [hstr]; rfl
      | false =>
        split
        · rw [h.encodings i, hold]
        · rcases hfin.entry i with hsame | ⟨hdecl, hstr, hseen⟩
          · rw [hsame]; rfl
          · rw [readsAs_iff.2 ⟨hseen, hdecl, hstr⟩] at hnew
            cases hnew
  · rw [hreal i, hstring i]
    rw [hside.written i, Bool.or_eq_true] at hi
    rcases hi with hi | hi
    · rcases h.written i hi hdecl with hw | hw
      · exact .inl (by rw [hw, Bool.true_or])
      · exact .inr (by rw [hw, Bool.true_or])
    · rcases hfin.entry i with hsame | ⟨-, hstr, -⟩
      · exact .inl (by rw [readsAs_iff.2 ⟨hi, hdecl, hsame.trans hdecl⟩, Bool.or_true])
      · exact .inr (by rw [readsAs_iff.2 ⟨hi, hdecl, hstr⟩, Bool.or_true])
  · rw [hstring i, Bool.or_eq_true] at hi
    rw [hside.written i, Bool.or_eq_true]
    rcases hi with hi | hi
    · exact ⟨(h.strings i hi).1, .inl (h.strings i hi).2⟩
    · obtain ⟨hseen, hdecl, -⟩ := readsAs_iff.1 hi
      exact ⟨hdecl, .inr hseen⟩
  · obtain ⟨h1, h2, -⟩ := hside.sizes
    obtain ⟨-, -, h5, h6⟩ := h.sizes
    refine ⟨h1.trans hfin.seen, h2.trans hfin.encodings, ?_, ?_⟩
    · rw [hr, List.length_mapIdx]; exact h5
    · rw [hs, List.length_mapIdx]; exact h6

/-- The first tick of a walk stays the first tick of its span. -/
theorem Walk.runs_first {r : Reader} {w w' : Walk} {out : List Emit} (first : Nat)
    (h : Runs (walkStep r.openArgs) w out (.ok w')) (hw : ∃ last, w.span = some ⟨first, last⟩) :
    ∃ last, w'.span = some ⟨first, last⟩ := by
  refine walk_invariant (P := fun w => ∃ last, w.span = some ⟨first, last⟩)
    (fun _ _ _ _ hv => hv) (fun offset v i v' recs hact hv => ?_) h hw
  obtain ⟨last, hv⟩ := hv
  cases i with
  | stamp digits =>
    obtain ⟨n, -, -, -, -, -, rfl⟩ := stamp_next hact
    exact ⟨n, by rw [hv]; rfl⟩
  | command word =>
    simp only [act, command] at hact
    split at hact
    · cases hact; exact ⟨last, hv⟩
    split at hact
    · cases hact; exact ⟨last, hv⟩
    · cases hact
  | comment text => cases hact; exact ⟨last, hv⟩
  | value letter payload id =>
    obtain ⟨index, ov, -, -, rfl⟩ := value_next hact
    exact ⟨last, by simp [hv]⟩

/-- A fresh walk has seen nothing. -/
theorem getD_replicate_false (n i : Nat) : (List.replicate n false).getD i false = false := by
  rw [List.getD_eq_getElem?_getD, List.getElem?_replicate]
  split <;> rfl

/-- From before an inner cut, the serial walk takes the first turn of the chunk that starts
there. -/
theorem InChunk.enter {r : Reader} {a b : Nat} {s fin : Walk} {out : List Emit} (hab : a ≤ b)
    (hseal : SealedAt r.bytes b) (hstamp : r.bytes[a]? = some 35)
    (hrun : Runs (walkStep r.openArgs) (r.walk (chunkTokens r.bytes a b) true none) out (.ok fin))
    (hfin : fin.span.isSome = true) (hbefore : Before r.bytes a s.tokens) (hblock : s.block = false)
    (htime : s.Spanned) (hjoin : ∀ p n, s.span = some p → fin.span = some n → p.last ≤ n.first)
    (hsizes : s.seen.length = r.encodings.length ∧ s.encodings.length = r.encodings.length)
    (hderived : ∀ i, s.seen.getD i false = false →
      s.encodings.getD i .unsupported = r.encodings.getD i .unsupported) :
    ∃ outS s₁ c₁, Steps (walkStep r.openArgs) s outS s₁ ∧ InChunk r b s fin c₁ s₁ := by
  cases hrun with
  | stop hs =>
    obtain ⟨-, last, ⟨e, -, hr⟩ | ⟨tokens, -, hr⟩ | ⟨i, tokens, v, -, hact, -⟩ |
      ⟨i, tokens, e, -, -, hr⟩⟩ := walkStep_stop hs
    · cases hr
    · obtain ⟨-, rfl⟩ := Walk.finish_eq hr.symm
      cases hfin
    · obtain ⟨digits, n, -, hn, hlt, -⟩ := Walk.act_leave hact
      exact absurd (integer_le hn) (by simpa [Reader.openArgs, Reader.args] using hlt)
    · cases hr
  | @next _ c₁ emitted out' _ hs htail =>
    obtain ⟨i, t, last, hitem, hact⟩ := walkStep_next hs
    obtain ⟨digits, rfl⟩ := item_stamp hstamp hitem
    obtain ⟨n, hn, -, -, hstop, -, hc₁⟩ := Walk.stamp_next hact
    obtain ⟨u, hitem', hsplit⟩ := (Split.start hab).item hseal hitem
    obtain ⟨fl, hfl⟩ := Walk.runs_first n htail ⟨n, by rw [hc₁]; rfl⟩
    have hle : s.time ≤ n := by
      unfold Walk.Spanned at htime
      rw [htime]
      cases hspan : s.span with
      | none => exact Nat.zero_le n
      | some p => exact hjoin p _ hspan hfl
    have hitemS : s.tokens.item s.block = .ok (some (.stamp digits), u) := by
      rw [hblock, hbefore.item]; exact hitem'
    have hturn := walkTurn_next [] hitemS
      (Walk.stamp_accepts (w := { s with tokens := u }) s.tokens.offset hn hblock hle hstop)
    rw [← walkStep_plain rfl] at hturn
    refine ⟨_, _, c₁, .single hturn, ?_, ?_, _, htail⟩
    · rw [(Walk.act_next hact).tokens]; exact hsplit
    rw [hc₁]
    refine ⟨hblock, rfl, (List.append_nil _).symm, ?_, .inr rfl, fun i => ?_, fun i => ?_, ?_⟩
    · show some (⟨(s.span.map TimeSpan.first).getD n, n⟩ : TimeSpan) =
        spanAppend s.span (some ⟨n, n⟩)
      cases s.span <;> rfl
    · show _ = (_ || (List.replicate r.encodings.length false).getD i false)
      rw [getD_replicate_false, Bool.or_false]
    · show s.encodings.getD i .unsupported = if s.seen.getD i false then _
        else r.encodings.getD i .unsupported
      cases hsi : s.seen.getD i false with
      | true => rfl
      | false => exact hderived i hsi
    · have hfresh : (r.walk (chunkTokens r.bytes a b) true none).seen.length = r.encodings.length :=
        List.length_replicate
      exact ⟨hsizes.1.trans hfresh.symm, hsizes.2, hfresh⟩

/-- Where the serial walk stands when a chunk is merged: at the start of the body, or before an
inner cut. -/
inductive Enters (r : Reader) (a : Nat) : Nat → Merge → Walk → Prop
  | first : Enters r a 0 (.start r.encodings)
      (r.walk (chunkTokens r.bytes a r.bytes.length) true none)
  | inner {index : Nat} {m : Merge} {s : Walk} : 0 < index → r.bytes[a]? = some 35 →
      Before r.bytes a s.tokens → Merged r.encodings m s → Enters r a index m s

/-- A fresh walk of the whole body and a merge of no chunk saw nothing. -/
theorem Merged.start (r : Reader) (tokens : Tokens) :
    Merged r.encodings (.start r.encodings) (r.walk tokens true none) := by
  refine ⟨rfl, rfl, rfl, rfl, fun i => ?_, fun i hi => ?_, fun i hi => ?_, ?_⟩
  · show r.encodings.getD i .unsupported =
      if (List.replicate r.encodings.length false).getD i false then _ else _
    rw [getD_replicate_false]
    rfl
  · have := getD_replicate_false r.encodings.length i
    rw [show (List.replicate r.encodings.length false).getD i false = true from hi] at this
    cases this
  · have := getD_replicate_false r.encodings.length i
    rw [show (List.replicate r.encodings.length false).getD i false = true from hi] at this
    cases this
  · simp [Reader.walk, Merge.start]

/-- One chunk: when it is valid and merges, the serial walk goes to before its end, and saw what the
merge saw. -/
theorem Enters.chunk {r : Reader} {a b index : Nat} {m m' : Merge} {s fin : Walk} {out : List Emit}
    (h : Enters r a index m s) (hab : a ≤ b) (hseal : SealedAt r.bytes b)
    (hrun : Runs (walkStep r.openArgs) (r.walk (chunkTokens r.bytes a b) true none) out (.ok fin))
    (hpart : m.part r.encodings index fin = some m') (hm : m'.Agrees) :
    ∃ outS s', Steps (walkStep r.openArgs) s outS s' ∧ Before r.bytes b s'.tokens ∧
      Merged r.encodings m' s' := by
  have hmerged : Merged r.encodings m s := by
    cases h with
    | first => exact .start r _
    | inner _ _ _ hmerged => exact hmerged
  have hderived : fin.Derived r.encodings := by
    refine Walk.runs_derived hrun ⟨fun i => .inl rfl, rfl, ?_⟩
    exact List.length_replicate
  have hspanned : fin.Spanned := Walk.runs_spanned hrun rfl
  have hagree := hmerged.consistent hderived hpart hm
  obtain ⟨hsome, hjoin, -⟩ := Merge.part_eq hpart
  obtain ⟨outS, s₁, c₁, hsteps, hin⟩ : ∃ outS s₁ c₁, Steps (walkStep r.openArgs) s outS s₁ ∧
      InChunk r b s fin c₁ s₁ := by
    cases h with
    | first =>
      refine ⟨[], _, _, .refl _, ⟨Split.start hab, ?_, _, hrun⟩⟩
      refine ⟨rfl, rfl, rfl, rfl, .inl rfl, fun i => ?_, fun i => ?_, rfl, rfl, ?_⟩
      · exact (Bool.or_self _).symm
      · exact (ite_self _).symm
      · exact List.length_replicate
    | inner hpos hstamp hbefore _ =>
      refine InChunk.enter hab hseal hstamp hrun (hsome hpos) hbefore hmerged.block hmerged.time
        ?_ ⟨hmerged.sizes.1, hmerged.sizes.2.1⟩ fun i hi => ?_
      · rw [hmerged.span]; exact (joinSpan_eq hjoin).2
      · rw [hmerged.encodings i]
        cases hstr : m.sawString.getD i false with
        | true => rw [(hmerged.strings i hstr).2] at hi; cases hi
        | false => rfl
  obtain ⟨outS', s', hsteps', hbefore, hblock, hside⟩ := hin.ends hseal hagree
  exact ⟨_, s', hsteps.trans hsteps', hbefore,
    hmerged.part hderived hspanned hpart hm hside hblock⟩

/-- Before the end of the file, in no dump block, the serial walk ends well. -/
theorem Before.runs {r : Reader} {s : Walk} (h : Before r.bytes r.bytes.length s.tokens)
    (hblock : s.block = false) :
    ∃ out fin, Runs (walkStep r.openArgs) s out (.ok fin) ∧ fin.span = s.span ∧
      fin.comments = s.comments ∧ fin.encodings = s.encodings := by
  have hturn := walkTurn_end r.openArgs [] (h.finished s.block)
  rw [← walkStep_plain rfl] at hturn
  obtain ⟨fin, hfin⟩ : ∃ fin, Walk.finish
      { s with tokens := chunkTokens r.bytes r.bytes.length r.bytes.length } = .ok fin :=
    ⟨_, Walk.finish_ok hblock⟩
  rw [hfin] at hturn
  obtain ⟨-, rfl⟩ := Walk.finish_eq hfin
  exact ⟨[], _, .stop hturn, rfl, rfl, rfl⟩

/-- The chunks from a cut on: when they all merge, the serial walk ends well and saw what the merge
saw. -/
theorem merge_serial {r : Reader} {cuts : List Nat} (hcut : Cutting r.bytes cuts) {a index : Nat}
    {m m' : Merge} {s : Walk} (hhead : cuts.head? = some a) (h : Enters r a index m s)
    (hloop : mergeLoop r.encodings index m
      ((windows cuts).map fun range => r.validate (chunkTokens r.bytes range.1 range.2)) = some m')
    (hm : m'.Agrees) :
    ∃ out fin, Runs (walkStep r.openArgs) s out (.ok fin) ∧ fin.span = m'.span ∧
      fin.comments = m'.comments ∧ ∃ s', fin.encodings = s'.encodings ∧
      Merged r.encodings m' s' := by
  have hsizes : m.sawReal.length = r.encodings.length ∧
      m.sawString.length = r.encodings.length := by
    cases h with
    | first => simp [Merge.start]
    | inner _ _ _ hmerged => exact hmerged.sizes.2.2
  induction hcut generalizing a index m s with
  | @last start hle =>
    obtain rfl : start = a := Option.some.inj hhead
    obtain ⟨out, result, hrun⟩ := walk_total r.openArgs
      (r.walk (chunkTokens r.bytes start r.bytes.length) true none)
    simp only [windows_pair, List.map_cons, List.map_nil, Reader.validate_eq hrun] at hloop
    cases result with
    | error e => cases hloop
    | ok fin =>
      simp only [mergeLoop] at hloop
      split at hloop
      · cases hloop
      next m₁ hpart =>
      cases hloop
      obtain ⟨outS, s', hsteps, hbefore, hmerged⟩ := h.chunk hle (.inl rfl) hrun hpart hm
      obtain ⟨out', fin', hend, hspan, hcomments, hencs⟩ := hbefore.runs hmerged.block
      exact ⟨_, fin', hsteps.runs hend, hspan.trans hmerged.span, hcomments.trans hmerged.comments,
        s', hencs, hmerged⟩
  | @cut start b cuts hle hline hstamp _ ih =>
    obtain rfl : start = a := Option.some.inj hhead
    obtain ⟨out, result, hrun⟩ := walk_total r.openArgs
      (r.walk (chunkTokens r.bytes start b) true none)
    simp only [windows_cons, List.map_cons, Reader.validate_eq hrun] at hloop
    cases result with
    | error e => cases hloop
    | ok fin =>
      simp only [mergeLoop] at hloop
      split at hloop
      · cases hloop
      next m₁ hpart =>
      obtain ⟨-, -, -, hr, hs⟩ := Merge.part_eq hpart
      have hr₁ : m₁.sawReal.length = r.encodings.length := by
        rw [hr, List.length_mapIdx]; exact hsizes.1
      have hs₁ : m₁.sawString.length = r.encodings.length := by
        rw [hs, List.length_mapIdx]; exact hsizes.2
      have hm₁ : m₁.Agrees := .of_loop hr₁ hs₁ hloop hm
      obtain ⟨outS, s', hsteps, hbefore, hmerged⟩ :=
        h.chunk hle (.of_cut hline hstamp) hrun hpart hm₁
      obtain ⟨out', fin', hrun', hrest⟩ :=
        ih rfl (.inner (Nat.succ_pos index) hstamp hbefore hmerged) hloop ⟨hr₁, hs₁⟩
      exact ⟨_, fin', hsteps.runs hrun', hrest⟩

/-- The merged encodings are those of the serial walk. -/
theorem Merged.encodings_eq {declared : List Encoding} {m : Merge} {s : Walk}
    (h : Merged declared m s) : s.encodings = m.encodings declared := by
  refine List.ext_getElem? fun i => ?_
  have hentry := h.encodings i
  unfold Merge.encodings
  rw [List.getElem?_mapIdx]
  rw [List.getD_eq_getElem?_getD, List.getD_eq_getElem?_getD (l := declared)] at hentry
  cases hd : declared[i]? with
  | none =>
    rw [List.getElem?_eq_none (by rw [h.sizes.2.1]; exact List.getElem?_eq_none_iff.1 hd)]
    rfl
  | some d =>
    obtain ⟨e, he⟩ : ∃ e, s.encodings[i]? = some e := by
      obtain ⟨hlt, -⟩ := List.getElem?_eq_some_iff.1 hd
      exact ⟨_, List.getElem?_eq_getElem (by rw [h.sizes.2.1]; exact hlt)⟩
    rw [he, hd] at hentry
    rw [he]
    exact congrArg some hentry

/-- The cuts that are found: none goes back, and each is a `#` after a line feed. -/
theorem findStamp_spec {bytes : List UInt8} {k : Nat} (h : findStamp bytes = some k) :
    bytes[k]? = some 10 ∧ bytes[k + 1]? = some 35 := by
  induction bytes generalizing k with
  | nil => cases h
  | cons a bytes ih =>
    cases bytes with
    | nil => cases h
    | cons b rest =>
      simp only [findStamp] at h
      split at h
      · next hab =>
        cases h
        simp only [Bool.and_eq_true, decide_eq_true_eq] at hab
        simp [hab]
      · obtain ⟨j, hj, rfl⟩ := Option.map_eq_some_iff.1 h
        simpa using ih hj

/-- The cuts of a parallel opening cut the file. -/
theorem Reader.cutLoop_cutting {r : Reader} {env : OpenEnv} {workers last : Nat}
    {indices cuts : List Nat} (hlast : last ≤ r.bytes.length)
    (h : r.cutLoop env workers last indices = some cuts) : Cutting r.bytes (last :: cuts) := by
  induction indices generalizing last cuts with
  | nil => cases h; exact .last hlast
  | cons index rest ih =>
    simp only [cutLoop] at h
    generalize r.body + (r.bytes.length - r.body) / workers * index = target at h
    split at h
    · cases h
    next count _ =>
    split at h
    · cases h
    next newline hfind =>
    split at h
    · cases h
    next hlt =>
    obtain ⟨tail, htail, rfl⟩ := Option.map_eq_some_iff.1 h
    obtain ⟨hline, hstamp⟩ := findStamp_spec hfind
    -- The probe is part of the file.
    have hfile : ∀ {k : Nat} {x : UInt8} {n : Nat},
        ((r.bytes.drop target).take n)[k]? = some x → r.bytes[target + k]? = some x := by
      intro k x n hk
      rw [List.getElem?_take] at hk
      split at hk
      · rw [← List.getElem?_drop]; exact hk
      · cases hk
    have hline' : r.bytes[target + newline + 1 - 1]? = some 10 := hfile hline
    have hstamp' : r.bytes[target + newline + 1]? = some 35 := hfile hstamp
    obtain ⟨hin, -⟩ := List.getElem?_eq_some_iff.1 hstamp'
    exact .cut (by omega) hline' hstamp' (ih (by omega) htail)

/-- When the merge of the chunks succeeds, the serial walk succeeds with the same span, comments and
encodings. -/
theorem parallelOpenWithCuts_serial {r : Reader} {cuts : List Nat} {o : Opened}
    (hhead : cuts.head? = some r.body) (hcut : Cutting r.bytes cuts)
    (h : r.parallelOpenWithCuts cuts = some o) : r.openSerial = .ok o := by
  unfold Reader.parallelOpenWithCuts at h
  dsimp only at h
  split at h
  · cases h
  next m hloop =>
  split at h
  · cases h
  next hconflict =>
  cases h
  have hm := Merge.agrees_of_conflict (Bool.eq_false_iff.2 hconflict)
  obtain ⟨out, fin, hrun, hspan, hcomments, s', hencs, hmerged⟩ :=
    merge_serial hcut hhead .first hloop hm
  rw [← tokensFrom_eq] at hrun
  unfold Reader.openSerial
  rw [Reader.validate_eq hrun]
  simp only [hspan, hcomments, hencs, hmerged.encodings_eq]

section
variable (r : Reader)

/-- Opening with chunks is opening without them: whenever the merge of the chunks succeeds, over any
cuts before timestamps that follow a line feed, the serial walk of the body succeeds with the same
span, comments and encodings; and what opening returns, well or with an error, does not depend on
whether the file was opened in parallel. -/
theorem parallelOpen_eq_serial :
    (∀ cuts o, cuts.head? = some r.body → Cutting r.bytes cuts →
      r.parallelOpenWithCuts cuts = some o → r.openSerial = .ok o) ∧
    ∀ file, (r.openBody file).map Prod.snd = r.openSerial := by
  have hcuts : ∀ cuts o, cuts.head? = some r.body → Cutting r.bytes cuts →
      r.parallelOpenWithCuts cuts = some o → r.openSerial = .ok o :=
    fun _ _ => parallelOpenWithCuts_serial
  refine ⟨hcuts, fun file => ?_⟩
  unfold Reader.openBody
  cases hpar : file.bind r.parallelOpen with
  | none =>
    dsimp only
    cases r.openSerial <;> rfl
  | some result =>
    obtain ⟨o, source⟩ := result
    obtain ⟨env, -, henv⟩ := Option.bind_eq_some_iff.1 hpar
    unfold Reader.parallelOpen at henv
    split at henv
    · cases henv
    next hle =>
    split at henv
    · cases henv
    dsimp only at henv
    split at henv
    · cases henv
    split at henv
    · cases henv
    next cuts hloop =>
    split at henv
    · split at henv
      · cases henv
      next o' hopen =>
      cases henv
      exact (hcuts _ _ rfl (Reader.cutLoop_cutting (by omega) hloop) hopen).symm
    · cases henv

end

/-- A body cut before its second tick opens in two chunks as it opens serially. -/
theorem parallelOpen_eq_serial_two :
    let h : Header := ⟨0, [(ascii "!", 0)], [], [.real]⟩
    let r := h.reader (fun _ => none) (ascii "#1\nsab !\n#4\nscd !\n")
    r.openSerial = .ok ⟨some ⟨1, 4⟩, [], [.string]⟩ :=
  (parallelOpen_eq_serial (Header.reader ⟨0, [(ascii "!", 0)], [], [.real]⟩ (fun _ => none)
    (ascii "#1\nsab !\n#4\nscd !\n"))).1 [0, 9, 18] _ rfl
    (.cut (by decide) (by decide) (by decide) (.last (by decide))) (by decide +kernel)

end Ondas.Vcd
