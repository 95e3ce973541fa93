import Ondas.Vcd.Walk

/-!
# Steps of the body loop

What one turn of the body loop can do, and the comparison of turns of two walks. `walkInner_eq`
turns the loop with its callbacks into the machine's output fed to the callback. `act_next` and
`act_leave` say what acting on an item changes. `walkStep_query` is the comparison every later
module rests on: two query walks over the same codes and selection, at the same tick and in the same
block, act alike on the same input, except that a walk with an earlier end may leave at a timestamp.
-/

namespace Ondas.Vcd

open Library

/-! ## Callbacks and records -/

/-- The record of a callback, if it is one. -/
def Emit.records : Emit → List Record
  | .record r => [r]
  | .progress => []

/-- The records among the callbacks of a walk. -/
def records (out : List Emit) : List Record :=
  out.flatMap Emit.records

@[simp] theorem records_nil : records [] = [] := rfl

@[simp] theorem records_append (xs ys : List Emit) :
    records (xs ++ ys) = records xs ++ records ys :=
  List.flatMap_append

/-- The records of an emission of records are these. -/
@[simp] theorem records_map_record (rs : List Record) : records (rs.map .record) = rs := by
  induction rs with
  | nil => rfl
  | cons r rs ih => rw [List.map_cons, ← List.singleton_append, records_append, ih]; rfl

@[simp] theorem records_progress : records [Emit.progress] = [] := rfl

/-- A visitor of records, as the callback of a walk whose progress callback always continues. -/
def onRecord {σ B : Type*} (visitor : σ → Record → σ × ControlFlow B) (c : σ) :
    Emit → σ × ControlFlow B
  | .record r => visitor c r
  | .progress => (c, .continue)

/-- Such a callback sees the records only. -/
theorem visit_onRecord {σ B : Type*} (visitor : σ → Record → σ × ControlFlow B) (c : σ)
    (out : List Emit) : visit (onRecord visitor) c out = visit visitor c (records out) := by
  induction out generalizing c with
  | nil => rfl
  | cons e out ih =>
    cases e with
    | progress => exact ih c
    | record r =>
      have hcons : records (.record r :: out) = r :: records out := rfl
      simp only [hcons, visit, onRecord]
      rcases visitor c r with ⟨c', _ | b⟩
      · exact ih c'
      · rfl

/-! ## One turn -/

namespace Walk

/-- A timestamp that moves the time is not in a dump block, not before the time and not past the
end. -/
theorem stamp_next {args : WalkArgs} {offset : Nat} {w w' : Walk} {digits : List UInt8}
    {recs : List Record} (h : stamp args offset w digits = .next w' recs) :
    ∃ n, integer digits = .ok n ∧ w.block = false ∧ w.time ≤ n ∧ n ≤ args.stop ∧ recs = [] ∧
      w' = { w with time := n, span := some ⟨(w.span.map TimeSpan.first).getD n, n⟩ } := by
  unfold stamp at h
  split at h
  · cases h
  next hblock =>
  split at h
  · cases h
  next n hn =>
  split at h
  · cases h
  next hlt =>
  split at h
  · cases h
  next hstop =>
  cases h
  exact ⟨n, hn, by simpa using hblock, by simpa using hlt, by simpa using hstop, rfl, rfl⟩

/-- Such a timestamp moves the time. -/
theorem stamp_accepts {args : WalkArgs} {w : Walk} {digits : List UInt8} {n : Nat} (offset : Nat)
    (hn : integer digits = .ok n) (hblock : w.block = false) (hle : w.time ≤ n)
    (hstop : n ≤ args.stop) :
    stamp args offset w digits =
      .next { w with time := n, span := some ⟨(w.span.map TimeSpan.first).getD n, n⟩ } [] := by
  unfold stamp
  rw [if_neg (by simp [hblock]), hn]
  dsimp only
  rw [if_neg (by omega), if_neg (by omega)]

/-- What going on after an item keeps and changes: nothing is read, time does not go back, and at
most one record is delivered, at the tick and position of the turn. -/
structure Goes (args : WalkArgs) (offset : Nat) (w w' : Walk) (recs : List Record) : Prop where
  tokens : w'.tokens = w.tokens
  lastProgress : w'.lastProgress = w.lastProgress
  position : w'.position = w.position
  time_le : w.time ≤ w'.time
  stop : w'.time ≠ w.time → w'.time ≤ args.stop
  records : recs = [] ∨ ∃ index v, recs = [⟨index, w.time, v, ⟨offset, w.time, w.block⟩⟩] ∧
    picks args index = true ∧ w'.time = w.time ∧ w'.block = w.block

/-- Going on after an item. -/
theorem act_next {args : WalkArgs} {offset : Nat} {w w' : Walk} {i : Item} {recs : List Record}
    (h : act args offset w i = .next w' recs) : Goes args offset w w' recs := by
  cases i with
  | stamp digits =>
    obtain ⟨n, -, -, hle, hstop, rfl, rfl⟩ := stamp_next h
    exact ⟨rfl, rfl, rfl, hle, fun _ => hstop, .inl rfl⟩
  | command word =>
    simp only [act, command] at h
    split at h
    · cases h; exact ⟨rfl, rfl, rfl, le_rfl, fun hne => absurd rfl hne, .inl rfl⟩
    split at h
    · cases h; exact ⟨rfl, rfl, rfl, le_rfl, fun hne => absurd rfl hne, .inl rfl⟩
    · cases h
  | comment text =>
    simp only [act] at h
    cases h
    exact ⟨rfl, rfl, rfl, le_rfl, fun hne => absurd rfl hne, .inl rfl⟩
  | value letter payload id =>
    simp only [act, value] at h
    split at h
    · cases h
    · next index hidx =>
      have hnote : ∀ w : Walk, (w.note args index letter).tokens = w.tokens ∧
          (w.note args index letter).lastProgress = w.lastProgress ∧
          (w.note args index letter).position = w.position ∧
          (w.note args index letter).time = w.time ∧
          (w.note args index letter).block = w.block := by
        intro w; unfold note; split <;> exact ⟨rfl, rfl, rfl, rfl, rfl⟩
      obtain ⟨h1, h2, h3, h4, h5⟩ := hnote w
      split at h
      · cases h
      · cases h
        exact ⟨h1, h2, h3, h4.ge, fun hne => absurd h4 hne, .inl rfl⟩
      · next v hv =>
        cases h
        refine ⟨h1, h2, h3, h4.ge, fun hne => absurd h4 hne, ?_⟩
        split
        · next hsel =>
          simp only [Bool.and_eq_true] at hsel
          exact .inr ⟨index, v, by rw [h4, h5], hsel.1, h4, h5⟩
        · exact .inl rfl

/-- Only a timestamp past the end leaves the loop, and the position is kept before it. -/
theorem act_leave {args : WalkArgs} {offset : Nat} {w w' : Walk} {i : Item}
    (h : act args offset w i = .leave w') :
    ∃ digits next, i = .stamp digits ∧ integer digits = .ok next ∧ args.stop < next ∧
      w.time ≤ next ∧ w.block = false ∧
      w' = { w with position := some ⟨offset, w.time, w.block⟩ } := by
  cases i with
  | stamp digits =>
    simp only [act, stamp] at h
    split at h
    · cases h
    next hblock =>
    split at h
    · cases h
    next next hint =>
    split at h
    · cases h
    next hlt =>
    split at h
    · next hstop =>
      cases h
      exact ⟨digits, next, rfl, hint, hstop, by simpa using hlt, by simpa using hblock, rfl⟩
    · cases h
  | command word =>
    simp only [act, command] at h
    split at h
    · cases h
    split at h <;> cases h
  | comment text => cases h
  | value letter payload id =>
    simp only [act, value] at h
    split at h
    · cases h
    split at h <;> cases h

end Walk

/-- A turn, up to the progress callback it may start with. -/
theorem walkStep_eq (args : WalkArgs) (w : Walk) :
    ∃ marks last, records marks = [] ∧
      walkStep args w = walkTurn args marks { w with lastProgress := last } := by
  unfold walkStep
  split
  · exact ⟨[.progress], _, rfl, rfl⟩
  · exact ⟨[], w.lastProgress, rfl, rfl⟩

/-- A turn of a walk without a progress callback. -/
theorem walkStep_plain {args : WalkArgs} (h : args.progressBytes = none) (w : Walk) :
    walkStep args w = walkTurn args [] w := by
  unfold walkStep
  rw [if_neg (by simp [Walk.progressDue, h])]

section
variable {args : WalkArgs} {w w' : Walk} {tokens : Tokens} {i : Item} {recs : List Record}

variable (args) in
/-- A turn that meets the end of the input. -/
theorem walkTurn_end (marks : List Emit) (h : w.tokens.item w.block = .ok (none, tokens)) :
    walkTurn args marks w = (marks, .stop (Walk.finish { w with tokens := tokens })) := by
  rw [walkTurn]; simp only [h]

/-- A turn that goes on after an item. -/
theorem walkTurn_next (marks : List Emit) (hitem : w.tokens.item w.block = .ok (some i, tokens))
    (hact : Walk.act args w.tokens.offset { w with tokens := tokens } i = .next w' recs) :
    walkTurn args marks w = (marks ++ recs.map .record, .next w') := by
  rw [walkTurn]; simp only [hitem, hact]

/-- A turn that leaves the loop. -/
theorem walkTurn_leave (marks : List Emit) (hitem : w.tokens.item w.block = .ok (some i, tokens))
    (hact : Walk.act args w.tokens.offset { w with tokens := tokens } i = .leave w') :
    walkTurn args marks w = (marks, .stop w'.finish) := by
  rw [walkTurn]; simp only [hitem, hact]

end

/-- A turn that goes on reads an item and acts on it. -/
theorem walkStep_next {args : WalkArgs} {w w' : Walk} {out : List Emit}
    (h : walkStep args w = (out, .next w')) :
    ∃ i tokens last, w.tokens.item w.block = .ok (some i, tokens) ∧
      Walk.act args w.tokens.offset { w with tokens := tokens, lastProgress := last } i =
        .next w' (records out) := by
  obtain ⟨marks, last, hmarks, hstep⟩ := walkStep_eq args w
  rw [hstep] at h
  unfold walkTurn at h
  split at h
  · cases h
  · cases h
  · next i tokens hitem =>
    split at h
    · next v recs hact =>
      cases h
      refine ⟨i, tokens, last, hitem, ?_⟩
      rw [records_append, hmarks, records_map_record, List.nil_append]
      exact hact
    · cases h
    · cases h

/-- A turn that stops delivers nothing. It meets the end of the input, leaves at a timestamp, or
fails. -/
theorem walkStep_stop {args : WalkArgs} {w : Walk} {out : List Emit} {r : Except Error Walk}
    (h : walkStep args w = (out, .stop r)) :
    records out = [] ∧ ∃ last,
      (∃ e, w.tokens.item w.block = .error e ∧ r = .error e) ∨
      (∃ tokens, w.tokens.item w.block = .ok (none, tokens) ∧
        r = Walk.finish { w with tokens := tokens, lastProgress := last }) ∨
      (∃ i tokens w', w.tokens.item w.block = .ok (some i, tokens) ∧
        Walk.act args w.tokens.offset { w with tokens := tokens, lastProgress := last } i =
          .leave w' ∧ r = w'.finish) ∨
      (∃ i tokens e, w.tokens.item w.block = .ok (some i, tokens) ∧
        Walk.act args w.tokens.offset { w with tokens := tokens, lastProgress := last } i =
          .fail e ∧ r = .error e) := by
  obtain ⟨marks, last, hmarks, hstep⟩ := walkStep_eq args w
  rw [hstep] at h
  unfold walkTurn at h
  split at h
  · next e hitem => cases h; exact ⟨hmarks, last, .inl ⟨e, hitem, rfl⟩⟩
  · next tokens hitem => cases h; exact ⟨hmarks, last, .inr (.inl ⟨tokens, hitem, rfl⟩)⟩
  · next i tokens hitem =>
    split at h
    · cases h
    · next w' hact =>
      cases h; exact ⟨hmarks, last, .inr (.inr (.inl ⟨i, tokens, w', hitem, hact, rfl⟩))⟩
    · next e hact =>
      cases h; exact ⟨hmarks, last, .inr (.inr (.inr ⟨i, tokens, e, hitem, hact, rfl⟩))⟩

/-- Ending a walk changes its position only. -/
theorem Walk.finish_eq {w w' : Walk} (h : w.finish = .ok w') :
    w.block = false ∧
      w' = { w with position := some (w.position.getD ⟨w.tokens.offset, w.time, w.block⟩) } := by
  unfold Walk.finish at h
  split at h
  · cases h
  · next hb => cases h; exact ⟨by simpa using hb, rfl⟩

/-- A walk in no dump block ends well. -/
theorem Walk.finish_ok {w : Walk} (h : w.block = false) :
    w.finish =
      .ok { w with position := some (w.position.getD ⟨w.tokens.offset, w.time, w.block⟩) } := by
  unfold Walk.finish
  rw [if_neg (by simp [h])]

/-- What acting on items keeps, and what does not look at the source and the position, a walk that
ends well keeps. -/
theorem walk_invariant {args : WalkArgs} {P : Walk → Prop}
    (hread : ∀ (w : Walk) tokens last position, P w →
      P { w with tokens := tokens, lastProgress := last, position := position })
    (hact : ∀ offset w i w' recs, Walk.act args offset w i = .next w' recs → P w → P w')
    {w w' : Walk} {out : List Emit} (h : Runs (walkStep args) w out (.ok w')) (hw : P w) :
      P w' := by
  generalize hr : Except.ok (ε := Error) w' = result at h
  induction h with
  | next hs _ ih =>
    obtain ⟨i, tokens, last, -, hturn⟩ := walkStep_next hs
    exact ih (hact _ _ _ _ _ hturn (hread _ tokens last _ hw)) hr
  | @stop w₀ emitted r hs =>
    subst hr
    obtain ⟨-, last, ⟨e, -, h⟩ | ⟨tokens, -, h⟩ | ⟨i, tokens, v, -, hturn, h⟩ |
      ⟨i, tokens, e, -, -, h⟩⟩ := walkStep_stop hs
    · cases h
    · obtain ⟨-, rfl⟩ := Walk.finish_eq h.symm
      exact hread w₀ tokens last _ hw
    · obtain ⟨-, -, -, -, -, -, -, hv⟩ := Walk.act_leave hturn
      obtain ⟨-, rfl⟩ := Walk.finish_eq h.symm
      rw [hv]
      exact hread w₀ tokens last _ hw
    · cases h

/-- Each turn that goes on takes at least one byte. -/
theorem walkStep_decreases (args : WalkArgs) (w : Walk) (out : List Emit) (w' : Walk)
    (h : walkStep args w = (out, .next w')) : w'.tokens.input.length < w.tokens.input.length := by
  obtain ⟨i, tokens, last, hitem, hact⟩ := walkStep_next h
  rw [(Walk.act_next hact).tokens]
  exact (Tokens.item_advances hitem).2 rfl

/-- A walk runs to its end. -/
theorem walk_total (args : WalkArgs) (w : Walk) : ∃ out r, Runs (walkStep args) w out r :=
  Runs.total (fun w => w.tokens.input.length) (walkStep_decreases args) w

/-- The loop with its callbacks is the walk's output fed to the callbacks. -/
theorem walkInner_eq {σ B : Type*} {args : WalkArgs} {w : Walk} {out : List Emit}
    {r : Except Error Walk} (h : Runs (walkStep args) w out r)
    (callback : σ → Emit → σ × ControlFlow B) (c : σ) :
    walkInner args callback c w =
      match visit callback c out with
      | (c', .break b) => (c', .broke b)
      | (c', .continue) => (c', .finished r) :=
  drive_eq_visit callback (fun w => w.tokens.input.length) (walkStep_decreases args) h c _
    (Nat.lt_succ_self _)

/-! ## Query walks compared -/

/-- A decoded value does not depend on where the source stands, which only error texts name. -/
theorem decodeValue_tokens {parseReal : List UInt8 → Option UInt64} {t t' : Tokens} {time : Nat}
    {selected : Bool} {encoding : Encoding} {letter : UInt8} {payload : List UInt8}
    {v : Option Value} (h : decodeValue parseReal t time selected encoding letter payload = .ok v) :
    decodeValue parseReal t' time selected encoding letter payload = .ok v := by
  cases encoding with
  | real =>
    simp only [decodeValue] at h ⊢
    split at h
    · next hl => rw [if_pos hl]; exact h
    · cases h
  | string =>
    simp only [decodeValue] at h ⊢
    split at h
    · next hl => rw [if_pos hl]; exact h
    · cases h
  | bits | event | unsupported =>
    simp only [decodeValue] at h ⊢
    split at h
    · cases h
    next hl =>
    rw [if_neg hl]
    split at h
    · cases h
    next hp => rw [if_neg hp]; exact h

/-- Two walks use the same codes, number parser and selection. -/
structure WalkArgs.Same (args args' : WalkArgs) : Prop where
  ids : args'.ids = args.ids
  denseIds : args'.denseIds = args.denseIds
  parseReal : args'.parseReal = args.parseReal
  selected : args'.selected = args.selected

theorem WalkArgs.Same.lookup {args args' : WalkArgs} (h : args.Same args') (id : List UInt8) :
    args'.lookup id = args.lookup id := by
  unfold WalkArgs.lookup; rw [h.ids, h.denseIds]

theorem WalkArgs.Same.picks {args args' : WalkArgs} (h : args.Same args') (index : Nat) :
    Walk.picks args' index = Walk.picks args index := by
  unfold Walk.picks; rw [h.selected]

/-- Two walks are at the same tick, in or out of a dump block alike, with the same encodings. -/
structure Walk.Agree (w w' : Walk) : Prop where
  time : w'.time = w.time
  block : w'.block = w.block
  encodings : w'.encodings = w.encodings

/-- A turn left at a timestamp past the end, with the position of the turn. -/
def Walk.LeavesAt (args : WalkArgs) (offset : Nat) (w : Walk) (n : Nat) (w' : Walk) : Prop :=
  args.stop < n ∧ w.time ≤ n ∧ w.block = false ∧
    w' = { w with position := some ⟨offset, w.time, w.block⟩ }

namespace Walk

/-- A walk that left at a timestamp ends there, with its position. -/
theorem LeavesAt.finish {args : WalkArgs} {offset n : Nat} {w w' : Walk}
    (h : LeavesAt args offset w n w') : w'.finish = .ok w' := by
  obtain ⟨-, -, hblock, rfl⟩ := h
  simp [Walk.finish, hblock]

/-- Where one walk goes on, a walk that agrees with it and uses the same codes goes on alike, or
leaves at a timestamp past its own end. -/
theorem act_agree {args args' : WalkArgs} {S : List Nat} (hsame : args.Same args')
    (hsel : args.selected = some S) {w w' v : Walk} (hagree : w.Agree w') {offset : Nat} {i : Item}
    {recs : List Record} (h : act args offset w i = .next v recs) :
    (∃ v', act args' offset w' i = .next v' recs ∧ v.Agree v') ∨
      ∃ v', act args' offset w' i = .leave v' ∧ LeavesAt args' offset w' v.time v' ∧ recs = [] := by
  obtain ⟨htime, hblock, henc⟩ := hagree
  cases i with
  | stamp digits =>
    simp only [act, stamp, htime, hblock] at h ⊢
    split at h
    · cases h
    next hb =>
    rw [if_neg hb]
    split at h
    · cases h
    next n hn =>
    split at h
    · cases h
    next hlt =>
    rw [if_neg hlt]
    split at h
    · cases h
    cases h
    by_cases hstop : args'.stop < n
    · rw [if_pos hstop]
      refine .inr ⟨_, rfl, ⟨hstop, ?_, ?_, ?_⟩, rfl⟩
      · rw [htime]; simpa using hlt
      · rw [hblock]; simpa using hb
      · rw [htime, hblock]
    · rw [if_neg hstop]
      exact .inl ⟨_, rfl, rfl, rfl, henc⟩
  | command word =>
    simp only [act, command, hblock] at h ⊢
    split at h
    · next hopen => cases h; rw [if_pos hopen]; exact .inl ⟨_, rfl, htime, rfl, henc⟩
    next hopen =>
    rw [if_neg hopen]
    split at h
    · next hclose => cases h; rw [if_pos hclose]; exact .inl ⟨_, rfl, htime, rfl, henc⟩
    · cases h
  | comment text =>
    cases h
    exact .inl ⟨_, rfl, htime, hblock, henc⟩
  | value letter payload id =>
    have hsel' : args'.selected = some S := hsame.selected.trans hsel
    simp only [act, value, note, hsel, hsel', hsame.lookup, hsame.picks, hsame.parseReal, htime,
      hblock, henc] at h ⊢
    split at h
    · cases h
    next index hidx =>
    split at h
    · cases h
    · next hv =>
      cases h
      rw [decodeValue_tokens hv]
      exact .inl ⟨_, rfl, rfl, rfl, rfl⟩
    · next x hv =>
      cases h
      rw [decodeValue_tokens hv]
      exact .inl ⟨_, rfl, rfl, rfl, rfl⟩

end Walk

/-- A walk whose source grows from another walk's, and which agrees with it, takes the same turn, or
leaves at a timestamp past its own end. -/
theorem walkStep_query {args args' : WalkArgs} {S : List Nat} (hsame : args.Same args')
    (hsel : args.selected = some S) {w w' v : Walk} (hagree : w.Agree w')
    (hgrow : w.tokens.Grows w'.tokens) {out : List Emit}
    (h : walkStep args w = (out, .next v)) :
    (∃ out' v', walkStep args' w' = (out', .next v') ∧ records out' = records out ∧ v.Agree v' ∧
      v.tokens.Grows v'.tokens) ∨
    (∃ out' v', walkStep args' w' = (out', .stop (.ok v')) ∧ records out' = [] ∧
      records out = [] ∧ args'.stop < v.time ∧ w.block = false ∧
      v'.position = some ⟨w'.tokens.offset, w'.time, false⟩) := by
  obtain ⟨i, u, last, hitem, hact⟩ := walkStep_next h
  obtain ⟨u', hitem', hgrow'⟩ := Tokens.item_grows hgrow hitem
  have hoff : w'.tokens.offset = w.tokens.offset := hgrow.1
  obtain ⟨marks, last', hmarks, hstep⟩ := walkStep_eq args' w'
  have hag : Walk.Agree { w with tokens := u, lastProgress := last }
      { w' with tokens := u', lastProgress := last' } :=
      ⟨hagree.time, hagree.block, hagree.encodings⟩
  rw [← hagree.block] at hitem'
  rcases Walk.act_agree hsame hsel hag hact with ⟨v', hact', hv⟩ | ⟨v', hact', hleave, hrecs⟩
  · refine .inl ⟨marks ++ (records out).map .record, v', ?_, ?_, hv, ?_⟩
    · rw [hstep, walkTurn]; simp only [hitem', hoff, hact']
    · rw [records_append, hmarks, records_map_record, List.nil_append]
    · rw [(Walk.act_next hact).tokens, (Walk.act_next hact').tokens]; exact hgrow'
  · refine .inr ⟨marks, v', ?_, hmarks, hrecs, hleave.1, hagree.block ▸ hleave.2.2.1, ?_⟩
    · rw [hstep, walkTurn]
      simp only [hitem', hoff, hact', hleave.finish]
    · obtain ⟨-, -, hblock, rfl⟩ := hleave
      simp only [hoff]
      exact congrArg (fun b => some (⟨_, _, b⟩ : Position)) hblock

/-! ## What a query delivers -/

section
variable {args : WalkArgs} {S : List Nat}

/-- A query keeps the encodings, and delivers the decoded values of its selection. -/
theorem Walk.act_decodes (hsel : args.selected = some S) {offset : Nat} {w w' : Walk} {i : Item}
    {recs : List Record} (h : act args offset w i = .next w' recs) : w'.encodings = w.encodings ∧
      ∀ rec ∈ recs, ∃ letter payload id, i = .value letter payload id ∧
        args.lookup id = some rec.index ∧ rec.index ∈ S ∧ rec.time = w.time ∧
        rec.position = ⟨offset, w.time, w.block⟩ ∧
        decodeValue args.parseReal w.tokens w.time true
          (w.encodings.getD rec.index .unsupported) letter
          payload = .ok (some rec.value) := by
  cases i with
  | stamp digits =>
    obtain ⟨n, -, -, -, -, rfl, rfl⟩ := stamp_next h
    exact ⟨rfl, fun rec hrec => by cases hrec⟩
  | command word =>
    simp only [act, command] at h
    split at h
    · cases h
      exact ⟨rfl, fun rec hrec => by cases hrec⟩
    split at h
    · cases h
      exact ⟨rfl, fun rec hrec => by cases hrec⟩
    · cases h
  | comment text =>
    cases h
    exact ⟨rfl, fun rec hrec => by cases hrec⟩
  | value letter payload id =>
    simp only [act, value, note, hsel] at h
    split at h
    · cases h
    next index hindex =>
    split at h
    · cases h
    · cases h
      exact ⟨rfl, fun rec hrec => by cases hrec⟩
    next v hv =>
    cases h
    refine ⟨rfl, fun rec hrec => ?_⟩
    split at hrec
    swap
    · cases hrec
    next hpicked =>
    obtain rfl := List.mem_singleton.1 hrec
    have hpicks : picks args index = true := (Bool.and_eq_true_iff.1 hpicked).1
    rw [hpicks] at hv
    rw [picks, hsel] at hpicks
    exact ⟨letter, payload, id, rfl, hindex, List.contains_iff_mem.1 hpicks, rfl, rfl, hv⟩

/-- **What a query walk delivers is decoded.** By induction on its run, each record is a value
change of its selection. -/
theorem records_decode (hsel : args.selected = some S) {w : Walk} {out : List Emit}
    {result : Except Error Walk} (h : Runs (walkStep args) w out result) :
    ∀ rec ∈ records out, rec.index ∈ S ∧ ∃ tokens letter payload,
      decodeValue args.parseReal tokens rec.time true
        (w.encodings.getD rec.index .unsupported) letter
        payload = .ok (some rec.value) := by
  induction h with
  | stop hstep =>
    rw [(walkStep_stop hstep).1]
    exact fun rec hrec => by cases hrec
  | next hstep _ ih =>
    obtain ⟨i, tokens, last, -, hact⟩ := walkStep_next hstep
    obtain ⟨hencodings, hrecords⟩ := Walk.act_decodes hsel hact
    intro rec hrec
    rw [records_append] at hrec
    rcases List.mem_append.1 hrec with hrec | hrec
    · obtain ⟨letter, payload, id, -, -, hmem, htime, -, hdecode⟩ := hrecords rec hrec
      exact ⟨hmem, tokens, letter, payload, htime ▸ hdecode⟩
    · obtain ⟨hmem, hdecode⟩ := ih rec hrec
      exact ⟨hmem, hencodings ▸ hdecode⟩

end

end Ondas.Vcd
