import Ondas.Vcd.Validate

/-!
# Reading on from a position

`Remains` is what a body still holds after a position: the records a query walk from there delivers
when nothing stops it. A read to an earlier end delivers those up to its end, and leaves a position
after which the others remain (`Remains.until`); so does the position of each delivered record
(`Remains.record`). The walk behind a position is determined by the source, the tick and the dump
block alone (`Walk.Same`).
-/

namespace Ondas.Vcd

open Library

/-! ## Walks that go on alike -/

/-- Two query walks agree in everything that matters to what they still deliver. -/
structure Walk.Same (w w' : Walk) : Prop where
  tokens : w'.tokens = w.tokens
  time : w'.time = w.time
  block : w'.block = w.block
  encodings : w'.encodings = w.encodings
  position : w'.position = w.position

section
variable {args : WalkArgs} {S : List Nat}

/-- Acting on an item looks at nothing else. -/
theorem Walk.act_same (hsel : args.selected = some S) {w w' : Walk} (h : w.Same w') (offset : Nat)
    (i : Item) :
    (∃ v v' recs, act args offset w i = .next v recs ∧ act args offset w' i = .next v' recs ∧
      v.Same v') ∨
    (∃ v v', act args offset w i = .leave v ∧ act args offset w' i = .leave v' ∧ v.Same v') ∨
    ∃ e, act args offset w i = .fail e ∧ act args offset w' i = .fail e := by
  obtain ⟨tokens, last, time, span, block, encodings, seen, comments, position⟩ := w
  obtain ⟨tokens', last', time', span', block', encodings', seen', comments', position'⟩ := w'
  obtain ⟨rfl, rfl, rfl, rfl, rfl⟩ := h
  cases i with
  | stamp digits =>
    simp only [act, stamp]
    split
    · exact .inr (.inr ⟨_, rfl, rfl⟩)
    split
    · exact .inr (.inr ⟨_, rfl, rfl⟩)
    split
    · exact .inr (.inr ⟨_, rfl, rfl⟩)
    split
    · exact .inr (.inl ⟨_, _, rfl, rfl, rfl, rfl, rfl, rfl, rfl⟩)
    · exact .inl ⟨_, _, _, rfl, rfl, rfl, rfl, rfl, rfl, rfl⟩
  | command word =>
    simp only [act, command]
    split
    · exact .inl ⟨_, _, _, rfl, rfl, rfl, rfl, rfl, rfl, rfl⟩
    split
    · exact .inl ⟨_, _, _, rfl, rfl, rfl, rfl, rfl, rfl, rfl⟩
    · exact .inr (.inr ⟨_, rfl, rfl⟩)
  | comment text => exact .inl ⟨_, _, _, rfl, rfl, rfl, rfl, rfl, rfl, rfl⟩
  | value letter payload id =>
    simp only [act, value, note, hsel]
    split
    · exact .inr (.inr ⟨_, rfl, rfl⟩)
    split
    · exact .inr (.inr ⟨_, rfl, rfl⟩)
    · exact .inl ⟨_, _, _, rfl, rfl, rfl, rfl, rfl, rfl, rfl⟩
    · exact .inl ⟨_, _, _, rfl, rfl, rfl, rfl, rfl, rfl, rfl⟩

/-- Two results of walks agree. -/
def SameResult : Except Error Walk → Except Error Walk → Prop
  | .ok w, .ok w' => w.Same w'
  | .error e, .error e' => e = e'
  | _, _ => False

/-- Walks that agree end alike. -/
theorem Walk.finish_same {w w' : Walk} (h : w.Same w') : SameResult w.finish w'.finish := by
  obtain ⟨tokens, last, time, span, block, encodings, seen, comments, position⟩ := w
  obtain ⟨tokens', last', time', span', block', encodings', seen', comments', position'⟩ := w'
  obtain ⟨rfl, rfl, rfl, rfl, rfl⟩ := h
  unfold finish
  split
  · exact rfl
  · exact ⟨rfl, rfl, rfl, rfl, rfl⟩

/-- Walks that agree take the same turn. -/
theorem walkStep_same (hplain : args.progressBytes = none) (hsel : args.selected = some S)
    {w w' : Walk} (h : w.Same w') :
    (∃ out v v', walkStep args w = (out, .next v) ∧ walkStep args w' = (out, .next v') ∧
      v.Same v') ∨
    ∃ out result result', walkStep args w = (out, .stop result) ∧
      walkStep args w' = (out, .stop result') ∧ SameResult result result' := by
  have hread : ∀ tokens, Walk.Same { w with tokens := tokens } { w' with tokens := tokens } :=
    fun tokens => ⟨rfl, h.time, h.block, h.encodings, h.position⟩
  have hitem' : w'.tokens.item w'.block = w.tokens.item w.block := by rw [h.tokens, h.block]
  rw [walkStep_plain hplain, walkStep_plain hplain]
  cases hitem : w.tokens.item w.block with
  | error e =>
    rw [hitem] at hitem'
    refine .inr ⟨[], .error e, .error e, ?_, ?_, rfl⟩
    · rw [walkTurn]; simp only [hitem]
    · rw [walkTurn]; simp only [hitem']
  | ok read =>
    rw [hitem] at hitem'
    obtain ⟨_ | i, tokens⟩ := read
    · exact .inr ⟨[], _, _, walkTurn_end _ [] hitem, walkTurn_end _ [] hitem',
        Walk.finish_same (hread tokens)⟩
    · have hact := Walk.act_same hsel (hread tokens) w.tokens.offset i
      have hoff : w'.tokens.offset = w.tokens.offset := by rw [h.tokens]
      rcases hact with ⟨v, v', recs, hact, hact', hv⟩ | ⟨v, v', hact, hact', hv⟩ | ⟨e, hact, hact'⟩
      · rw [← hoff] at hact'
        exact .inl ⟨_, v, v', walkTurn_next [] hitem hact, walkTurn_next [] hitem' hact', hv⟩
      · rw [← hoff] at hact'
        exact .inr ⟨[], _, _, walkTurn_leave [] hitem hact, walkTurn_leave [] hitem' hact',
          Walk.finish_same hv⟩
      · rw [← hoff] at hact'
        refine .inr ⟨[], .error e, .error e, ?_, ?_, rfl⟩
        · rw [walkTurn]; simp only [hitem, hact]
        · rw [walkTurn]; simp only [hitem', hact']

/-- Walks that agree deliver the same and end alike. -/
theorem runs_same (hplain : args.progressBytes = none) (hsel : args.selected = some S) {w w' : Walk}
    {out : List Emit} {result : Except Error Walk} (h : Runs (walkStep args) w out result)
    (hsame : w.Same w') :
    ∃ result', Runs (walkStep args) w' out result' ∧ SameResult result result' := by
  induction h generalizing w' with
  | stop hs =>
    rcases walkStep_same hplain hsel hsame with ⟨out, v, v', h, -⟩ | ⟨out, r, r', h, h', hr⟩
    · rw [hs] at h; cases h
    · rw [hs] at h; cases h; exact ⟨r', .stop h', hr⟩
  | next hs _ ih =>
    rcases walkStep_same hplain hsel hsame with ⟨out, v, v', h, h', hv⟩ | ⟨out, r, r', h, -⟩
    · rw [hs] at h
      cases h
      obtain ⟨result', hrun', hresult⟩ := ih hv
      exact ⟨result', .next h' hrun', hresult⟩
    · rw [hs] at h; cases h

end

/-! ## What remains after a position -/

namespace Reader

/-- The records a query walk from a state delivers when nothing stops it; it ends well. -/
def Ahead (r : Reader) (signals : List Signal) (w : Walk) (recs : List Record) : Prop :=
  ∃ out fin, Runs (walkStep (r.queryArgs signals u64Max)) w out (.ok fin) ∧ records out = recs

/-- The records a body holds after a position. -/
def Remains (r : Reader) (signals : List Signal) (p : Position) (recs : List Record) : Prop :=
  ∃ w, r.Delivers .none signals u64Max p recs (.ok w)

/-- The state a read from a position starts in. -/
def startAt (r : Reader) (p : Position) : Walk :=
  r.walk (tokensFrom r.bytes .none p.offset) false (some p)

/-- What remains after a position is what is ahead of the walk that starts there. -/
theorem remains_iff {r : Reader} {signals : List Signal} {p : Position} {recs : List Record} :
    r.Remains signals p recs ↔ r.Ahead signals (r.startAt p) recs := by
  constructor
  · rintro ⟨w, out, rfl, hrun⟩
    exact ⟨out, w, hrun, rfl⟩
  · rintro ⟨out, w, hrun, rfl⟩
    exact ⟨w, out, rfl, hrun⟩

/-- A walk of this reader at the top of its loop. -/
structure Stands (r : Reader) (w : Walk) : Prop where
  tokens : w.tokens.Of r.bytes r.bytes.length
  encodings : w.encodings = r.encodings
  position : w.position = none

theorem Stands.start (r : Reader) (p : Position) : r.Stands (r.startAt p) :=
  ⟨tokensFrom_eq r.bytes p.offset, rfl, rfl⟩

/-- A walk is what a read from its position starts in. -/
theorem Stands.same {r : Reader} {w : Walk} (h : r.Stands w) : w.Same (r.startAt w.here) := by
  refine ⟨?_, rfl, rfl, h.encodings.symm, h.position.symm⟩
  have htokens := h.tokens
  unfold Tokens.Of at htokens
  rw [htokens]
  exact tokensFrom_eq r.bytes w.tokens.offset

/-- What is ahead of a walk remains after its position. -/
theorem Ahead.remains {r : Reader} {signals : List Signal} {w : Walk} {recs : List Record}
    (h : r.Ahead signals w recs) (hw : r.Stands w) : r.Remains signals w.here recs := by
  obtain ⟨out, fin, hrun, rfl⟩ := h
  obtain ⟨result, hrun', hresult⟩ := runs_same rfl rfl hrun hw.same
  cases result with
  | error e => exact hresult.elim
  | ok fin' => exact remains_iff.2 ⟨out, fin', hrun', rfl⟩

/-- A step of a walk of this reader. -/
theorem Stands.step {r : Reader} {signals : List Signal} {stop : Nat} {w w' : Walk}
    {out : List Emit} (h : r.Stands w)
    (hs : walkStep (r.queryArgs signals stop) w = (out, .next w')) : r.Stands w' := by
  obtain ⟨i, tokens, last, hitem, hact⟩ := walkStep_next hs
  have hgoes := Walk.act_next hact
  refine ⟨?_, ?_, hgoes.position.trans h.position⟩
  · rw [hgoes.tokens]
    exact h.tokens.advances (Tokens.item_advances hitem).1
  · rcases Walk.act_tables hact with ⟨letter, payload, id, hvalue⟩ | ⟨henc, -⟩
    · obtain ⟨index, ov, -, -, rfl⟩ := Walk.value_next hvalue
      exact h.encodings
    · rw [henc]; exact h.encodings

/-- A step delivers at most one record, at the tick and the position of the walk. -/
theorem step_records {args : WalkArgs} {w w' : Walk} {out : List Emit}
    (hs : walkStep args w = (out, .next w')) : w.time ≤ w'.time ∧
      (records out = [] ∨ ∃ rec, records out = [rec] ∧ rec.time = w.time ∧ rec.position = w.here ∧
        w'.time = w.time) := by
  obtain ⟨i, tokens, last, -, hact⟩ := walkStep_next hs
  have hgoes := Walk.act_next hact
  refine ⟨hgoes.time_le, ?_⟩
  rcases hgoes.records with hnil | ⟨index, v, hone, -, htime, -⟩
  · exact .inl hnil
  · exact .inr ⟨_, hone, rfl, rfl, htime⟩

/-- A walk that stops delivers nothing more. -/
theorem stop_records {args : WalkArgs} {w : Walk} {out : List Emit} {result : Except Error Walk}
    (hs : walkStep args w = (out, .stop result)) : records out = [] :=
  (walkStep_stop hs).1

/-- Time does not go back: nothing ahead of a walk is before it, and the records are in order. -/
theorem Ahead.sorted {r : Reader} {signals : List Signal} {w : Walk} {recs : List Record}
    (h : r.Ahead signals w recs) :
    (∀ rec ∈ recs, w.time ≤ rec.time) ∧ recs.Pairwise fun a b => a.time ≤ b.time := by
  obtain ⟨out, fin, hrun, rfl⟩ := h
  generalize Except.ok (ε := Error) fin = result at hrun
  induction hrun with
  | stop hs => rw [stop_records hs]; exact ⟨nofun, .nil⟩
  | next hs _ ih =>
    obtain ⟨hle, hrecs⟩ := step_records hs
    obtain ⟨hall, hsorted⟩ := ih
    have hahead := fun rec hrec => hle.trans (hall rec hrec)
    rw [records_append]
    rcases hrecs with hnil | ⟨rec, hone, htime, -, hsame⟩
    · rw [hnil]; exact ⟨hahead, hsorted⟩
    · rw [hone]
      refine ⟨fun rec' hrec' => ?_, .cons (fun rec' hrec' => ?_) hsorted⟩
      · rcases List.mem_cons.1 hrec' with rfl | hrec'
        · exact htime.ge
        · exact hahead rec' hrec'
      · exact htime ▸ hahead rec' hrec'

/-- After the position of a record, that record and the ones behind it remain. -/
theorem Ahead.record {r : Reader} {signals : List Signal} {w : Walk} {pre post : List Record}
    {rec : Record} (h : r.Ahead signals w (pre ++ rec :: post)) (hw : r.Stands w) :
    r.Remains signals rec.position (rec :: post) := by
  obtain ⟨out, fin, hrun, hout⟩ := h
  generalize hr : Except.ok (ε := Error) fin = result at hrun
  induction hrun generalizing pre with
  | stop hs => rw [stop_records hs] at hout; cases pre <;> cases hout
  | @next w w' emitted out result hs hrest ih =>
    subst hr
    have hahead : r.Ahead signals w (records (emitted ++ out)) :=
      ⟨emitted ++ out, fin, .next hs hrest, rfl⟩
    rw [records_append] at hout
    rcases (step_records hs).2 with hnil | ⟨first, hone, -, hposition, -⟩
    · rw [hnil, List.nil_append] at hout
      exact ih (hw.step hs) hout rfl
    · rw [hone] at hout
      cases pre with
      | nil =>
        simp only [List.cons_append, List.nil_append, List.cons.injEq] at hout
        obtain ⟨rfl, hpost⟩ := hout
        rw [records_append, hone, hpost] at hahead
        rw [hposition]
        exact hahead.remains hw
      | cons head pre =>
        simp only [List.cons_append, List.nil_append, List.cons.injEq] at hout
        exact ih (hw.step hs) hout.2 rfl

/-- A walk with an earlier end acts the same, or leaves before a later timestamp. -/
theorem act_until {r : Reader} {signals : List Signal} (stop : Nat) {offset : Nat} {w w' : Walk}
    {i : Item} {recs : List Record}
    (h : Walk.act (r.queryArgs signals u64Max) offset w i = .next w' recs) :
    Walk.act (r.queryArgs signals stop) offset w i = .next w' recs ∧
        (w.time ≤ stop → w'.time ≤ stop) ∨
      recs = [] ∧ stop < w'.time ∧ w.block = false ∧
        Walk.act (r.queryArgs signals stop) offset w i =
          .leave { w with position := some ⟨offset, w.time, w.block⟩ } := by
  have hgoes := Walk.act_next h
  cases i with
  | stamp digits =>
    obtain ⟨n, hn, hblock, hle, -, rfl, rfl⟩ := Walk.stamp_next h
    by_cases hstop : n ≤ stop
    · exact .inl ⟨Walk.stamp_accepts offset hn hblock hle hstop, fun _ => hstop⟩
    · refine .inr ⟨rfl, by simpa using hstop, hblock, ?_⟩
      have hlt : (r.queryArgs signals stop).stop < n := by
        show stop < n
        omega
      simp only [Walk.act, Walk.stamp, hn, hblock, Bool.false_eq_true, if_false]
      rw [if_neg (by omega), if_pos hlt]
  | command word =>
    refine .inl ⟨h, fun hle => ?_⟩
    simp only [Walk.act, Walk.command] at h
    split at h
    · cases h; exact hle
    split at h
    · cases h; exact hle
    · cases h
  | comment text => cases h; exact .inl ⟨rfl, fun hle => hle⟩
  | value letter payload id =>
    refine .inl ⟨h, fun hle => ?_⟩
    obtain ⟨index, ov, -, -, rfl⟩ := Walk.value_next h
    exact hle

/-- A walk with an earlier end takes the same step, or leaves before a later timestamp. -/
theorem step_until {r : Reader} {signals : List Signal} (stop : Nat) {w w' : Walk}
    {out : List Emit} (hs : walkStep (r.queryArgs signals u64Max) w = (out, .next w')) :
    walkStep (r.queryArgs signals stop) w = (out, .next w') ∧ (w.time ≤ stop → w'.time ≤ stop) ∨
      records out = [] ∧ stop < w'.time ∧ ∃ v,
        walkStep (r.queryArgs signals stop) w = ([], .stop (.ok v)) ∧ v.position = some w.here := by
  rw [walkStep_plain rfl] at hs ⊢
  unfold walkTurn at hs
  split at hs
  · cases hs
  · cases hs
  next i tokens hitem =>
  split at hs
  · next v recs hact =>
    cases hs
    rcases act_until stop hact with ⟨hact', hle⟩ | ⟨rfl, hlt, hblock, hact'⟩
    · exact .inl ⟨walkTurn_next [] hitem hact', hle⟩
    · have hfin := Walk.finish_ok
        (w := { w with tokens := tokens, position := some w.here }) hblock
      refine .inr ⟨rfl, hlt, { w with tokens := tokens, position := some w.here }, ?_, rfl⟩
      rw [walkTurn_leave [] hitem hact']
      exact congrArg (fun r => ([], Outcome.stop r)) hfin
  · cases hs
  · cases hs

/-- A walk to the end of time that stops well is at the end of the input, in no dump block. -/
theorem stop_end {r : Reader} {signals : List Signal} {w fin : Walk} {out : List Emit}
    (hs : walkStep (r.queryArgs signals u64Max) w = (out, .stop (.ok fin))) :
    ∃ tokens, w.tokens.item w.block = .ok (none, tokens) ∧ w.block = false := by
  obtain ⟨-, last, ⟨e, -, h⟩ | ⟨tokens, hitem, h⟩ | ⟨i, tokens, v, -, hact, -⟩ |
    ⟨i, tokens, e, -, -, h⟩⟩ := walkStep_stop hs
  · cases h
  · exact ⟨tokens, hitem, (Walk.finish_eq h.symm).1⟩
  · obtain ⟨digits, n, -, hn, hlt, -⟩ := Walk.act_leave hact
    have hle := integer_le hn
    have : u64Max < n := hlt
    omega
  · cases h

/-- At the end of the input nothing remains. -/
theorem Stands.ended {r : Reader} {signals : List Signal} {w : Walk} {tokens : Tokens}
    (h : r.Stands w) (hitem : w.tokens.item w.block = .ok (none, tokens))
    (hblock : w.block = false) :
    r.Remains signals ⟨tokens.offset, w.time, w.block⟩ [] := by
  obtain ⟨hagain, hadv⟩ := Tokens.item_end hitem
  have hturn := walkTurn_end (r.queryArgs signals u64Max)
    (w := { w with tokens := tokens }) [] hagain
  rw [Walk.finish_ok (w := { w with tokens := tokens }) hblock, ← walkStep_plain rfl] at hturn
  have hahead : r.Ahead signals { w with tokens := tokens } [] := ⟨[], _, .stop hturn, rfl⟩
  exact hahead.remains ⟨h.tokens.advances hadv, h.encodings, h.position⟩

/-- A walk to an earlier end delivers the records up to it, and ends well at a position after which
the others remain. -/
theorem Ahead.until {r : Reader} {signals : List Signal} {w : Walk} {recs : List Record}
    (h : r.Ahead signals w recs) (hw : r.Stands w) {stop : Nat} (hstop : w.time ≤ stop) :
    ∃ out v p, Runs (walkStep (r.queryArgs signals stop)) w out (.ok v) ∧
      records out = recs.takeWhile (fun rec => rec.time ≤ stop) ∧ v.position = some p ∧
      p.time ≤ stop ∧ r.Remains signals p (recs.dropWhile fun rec => rec.time ≤ stop) := by
  obtain ⟨out, fin, hrun, hout⟩ := h
  generalize hr : Except.ok (ε := Error) fin = result at hrun
  induction hrun generalizing recs with
  | @stop w out result hs =>
    subst hr
    rw [stop_records hs] at hout
    subst hout
    obtain ⟨tokens, hitem, hblock⟩ := stop_end hs
    have hturn := walkTurn_end (r.queryArgs signals stop) [] hitem
    rw [Walk.finish_ok (w := { w with tokens := tokens }) hblock, ← walkStep_plain rfl] at hturn
    refine ⟨[], _, ⟨tokens.offset, w.time, w.block⟩, .stop hturn, rfl, ?_, hstop,
      hw.ended hitem hblock⟩
    simp only [hw.position, Option.getD_none]
  | @next w w' emitted out result hs hrest ih =>
    subst hr
    have hahead : r.Ahead signals w recs := ⟨emitted ++ out, fin, .next hs hrest, hout⟩
    have hahead' : r.Ahead signals w' (records out) := ⟨out, fin, hrest, rfl⟩
    rw [records_append] at hout
    rcases step_until stop hs with ⟨hs', hle⟩ | ⟨hnil, hlt, v, hs', hposition⟩
    · obtain ⟨out', v, p, hrun', hrecs, hposition, hp, hremains⟩ :=
        ih (hw.step hs) (hle hstop) rfl rfl
      -- The record of this step, if any, is at the tick of the walk.
      have hfirst : ∀ rec ∈ records emitted, decide (rec.time ≤ stop) = true := by
        intro rec hrec
        rcases (step_records hs).2 with hnil | ⟨first, hone, htime, -⟩
        · rw [hnil] at hrec; cases hrec
        · rw [hone, List.mem_singleton] at hrec
          subst hrec
          simpa [htime] using hstop
      refine ⟨emitted ++ out', v, p, .next hs' hrun', ?_, hposition, hp, ?_⟩
      · rw [records_append, hrecs, ← hout, List.takeWhile_append_of_pos hfirst]
      · rw [← hout, List.dropWhile_append_of_pos hfirst]; exact hremains
    · -- Everything ahead is past the end.
      rw [hnil, List.nil_append] at hout
      have hpast : ∀ rec ∈ recs, ¬ decide (rec.time ≤ stop) = true := by
        intro rec hrec
        have := hahead'.sorted.1 rec (hout ▸ hrec)
        simp only [decide_eq_true_eq]
        omega
      have htake : recs.takeWhile (fun rec => decide (rec.time ≤ stop)) = [] := by
        cases recs with
        | nil => rfl
        | cons rec rest => exact List.takeWhile_cons_of_neg (hpast rec (by simp))
      have hdrop : recs.dropWhile (fun rec => decide (rec.time ≤ stop)) = recs := by
        cases recs with
        | nil => rfl
        | cons rec rest => exact List.dropWhile_cons_of_neg (hpast rec (by simp))
      refine ⟨[], v, w.here, .stop hs', htake.symm, hposition, hstop, ?_⟩
      rw [hdrop]
      exact hahead.remains hw

/-! ## Reads from positions -/

/-- The records after a position are in order, from the position's tick on. -/
theorem Remains.sorted {r : Reader} {signals : List Signal} {p : Position} {recs : List Record}
    (h : r.Remains signals p recs) :
    (∀ rec ∈ recs, p.time ≤ rec.time) ∧ recs.Pairwise fun a b => a.time ≤ b.time :=
  (remains_iff.1 h).sorted

/-- After the position of a record, that record and the ones behind it remain. -/
theorem Remains.record {r : Reader} {signals : List Signal} {p : Position} {pre post : List Record}
    {rec : Record} (h : r.Remains signals p (pre ++ rec :: post)) :
    r.Remains signals rec.position (rec :: post) :=
  (remains_iff.1 h).record (Stands.start r p)

/-- A read from a position delivers what remains after it up to its end, and leaves a position after
which the rest remains. -/
theorem Remains.until {r : Reader} {signals : List Signal} {p : Position} {recs : List Record}
    (h : r.Remains signals p recs) {stop : Nat} (hstop : p.time ≤ stop) :
    ∃ v q, r.Delivers .none signals stop p (recs.takeWhile fun rec => rec.time ≤ stop) (.ok v) ∧
      v.position = some q ∧ q.time ≤ stop ∧
      r.Remains signals q (recs.dropWhile fun rec => rec.time ≤ stop) := by
  obtain ⟨out, v, q, hrun, hout, hq, hle, hremains⟩ :=
    (remains_iff.1 h).until (Stands.start r p) hstop
  exact ⟨v, q, ⟨out, hout.symm, hrun⟩, hq, hle, hremains⟩

/-- What a read delivers and how it ends is determined. -/
theorem Delivers.unique {r : Reader} {faults : Faults} {signals : List Signal} {stop : Nat}
    {p : Position} {recs recs' : List Record} {result result' : Except Error Walk}
    (h : r.Delivers faults signals stop p recs result)
    (h' : r.Delivers faults signals stop p recs' result') : recs = recs' ∧ result = result' := by
  obtain ⟨out, rfl, hrun⟩ := h
  obtain ⟨out', rfl, hrun'⟩ := h'
  obtain ⟨rfl, rfl⟩ := hrun.unique hrun'
  exact ⟨rfl, rfl⟩

/-- What remains after a position is determined. -/
theorem Remains.unique {r : Reader} {signals : List Signal} {p : Position}
    {recs recs' : List Record}
    (h : r.Remains signals p recs) (h' : r.Remains signals p recs') : recs = recs' := by
  obtain ⟨w, hdelivers⟩ := h
  obtain ⟨w', hdelivers'⟩ := h'
  exact (hdelivers.unique hdelivers').1

/-- The ticks of what remains are 64 bits. -/
theorem Remains.whole {r : Reader} {signals : List Signal} {p : Position} {recs : List Record}
    (h : r.Remains signals p recs) (hp : p.time ≤ u64Max) :
    (recs.takeWhile fun rec => rec.time ≤ u64Max) = recs := by
  obtain ⟨v, q, hdelivers, -⟩ := h.until hp
  obtain ⟨w, hwhole⟩ := h
  exact (hdelivers.unique hwhole).1

/-- A body that opened holds some records after each accepted position. -/
theorem remains_of_accepted {r : Reader} (signals : List Signal) {p : Position}
    (h : Accepted r r.bytes.length p) : ∃ recs, r.Remains signals p recs := by
  obtain ⟨recs, result, hd⟩ := r.delivers_total .none signals u64Max p
  obtain ⟨-, ⟨limit, message, hreads, -⟩ | ⟨w, q, rfl, -⟩⟩ := h.delivers hd
  · cases hreads
  · exact ⟨recs, w, hd⟩

/-! ## Resumption -/

/-- A read from a position, or from the body start when the parallel path does not take it over,
gives its visitor these records and, unless the visitor breaks, leaves this position. What position
the reader kept before does not matter. -/
def Reads (r : Reader) (signals : List Signal) (stop : Nat) (position : Option Position)
    (recs : List Record) (left : Position) : Prop :=
  ∀ (σ B : Type) (kept : Option Position)
    (parallelFull : ParallelSource → Option (Reader × σ × Except Error (ControlFlow B)))
    (visitor : σ → Record → σ × ControlFlow B) (c : σ),
    (position = none → r.parallel.bind parallelFull = none) →
    ({ r with position := kept }).readFrom .none parallelFull signals stop position visitor c =
      match visit visitor c recs with
      | (c', .break b) => ({ r with position := none }, c', .ok (.break b))
      | (c', .continue) => ({ r with position := some left }, c', .ok .continue)

/-- A walk that goes to its end is such a read. -/
theorem Delivers.reads {r : Reader} {signals : List Signal} {stop : Nat}
    {position : Option Position} {recs : List Record} {w : Walk} {left : Position}
    (h : r.Delivers .none signals stop (position.getD r.bodyStart) recs (.ok w))
    (hleft : w.position = some left) : r.Reads signals stop position recs left := by
  intro σ B kept parallelFull visitor c hparallel
  have hserial : ({ r with position := kept }).readFrom .none parallelFull signals stop position
      visitor c = ({ r with position := kept }).serialRead .none signals stop position
      visitor c := by
    unfold readFrom
    cases position with
    | none =>
      dsimp only
      rw [hparallel rfl]
    | some p => rfl
  have hdelivers : ({ r with position := kept }).Delivers .none signals stop
      (position.getD ({ r with position := kept }).bodyStart) recs (.ok w) := h
  rw [hserial, serialRead_eq rfl hdelivers]
  unfold ended
  rcases visit visitor c recs with ⟨c', _ | b⟩
  · rw [← hleft]
  · rfl

/-- Of sorted records, those after a tick are behind it. -/
theorem lt_of_mem_dropWhile {recs : List Record} {stop : Nat}
    (h : recs.Pairwise fun a b => a.time ≤ b.time) :
    ∀ rec ∈ recs.dropWhile (fun rec => rec.time ≤ stop), stop < rec.time := by
  induction recs with
  | nil => exact nofun
  | cons first rest ih =>
    obtain ⟨hfirst, hrest⟩ := List.pairwise_cons.1 h
    by_cases hle : first.time ≤ stop
    · rw [List.dropWhile_cons_of_pos (by simpa using hle)]
      exact ih hrest
    · rw [List.dropWhile_cons_of_neg (by simpa using hle)]
      intro rec hrec
      rcases List.mem_cons.1 hrec with rfl | hrec
      · omega
      · have := hfirst rec hrec
        omega

/-- The records up to a later tick are those up to an earlier one and those between. -/
theorem takeWhile_split (recs : List Record) {e1 e2 : Nat} (hle : e1 ≤ e2) :
    recs.takeWhile (fun rec => rec.time ≤ e2) =
      recs.takeWhile (fun rec => rec.time ≤ e1) ++
        (recs.dropWhile fun rec => rec.time ≤ e1).takeWhile fun rec => rec.time ≤ e2 := by
  have hall : ∀ rec ∈ recs.takeWhile (fun rec => rec.time ≤ e1), decide (rec.time ≤ e2) = true := by
    intro rec hrec
    have hearly : rec.time ≤ e1 := by simpa using List.mem_takeWhile_imp hrec
    exact decide_eq_true (hearly.trans hle)
  conv => enter [1, 2]; rw [← List.takeWhile_append_dropWhile
    (p := fun rec : Record => decide (rec.time ≤ e1)) (l := recs)]
  exact List.takeWhile_append_of_pos hall

/-- What remains after a position is read from it. -/
theorem Remains.reads {r : Reader} {signals : List Signal} {position : Option Position}
    {recs : List Record} (h : r.Remains signals (position.getD r.bodyStart) recs) {stop : Nat}
    (hstop : (position.getD r.bodyStart).time ≤ stop) : ∃ left,
      r.Reads signals stop position (recs.takeWhile fun rec => rec.time ≤ stop) left ∧
        left.time ≤ stop ∧ r.Remains signals left (recs.dropWhile fun rec => rec.time ≤ stop) := by
  obtain ⟨v, left, hdelivers, hposition, hle, hremains⟩ := h.until hstop
  exact ⟨left, hdelivers.reads hposition, hle, hremains⟩

end Reader

section
variable (h : Header) (parseReal : List UInt8 → Option UInt64) (bytes : List UInt8) {o : Opened}

/-- **Resumption.** For a body that opened, serially or in chunks, a read of a selection from the
body start to `e2` delivers some records. A read from the position of each of them delivers that
record and the ones behind it; and a read to an earlier `e1` leaves a position from which the
others, those at ticks past `e1`, are read. -/
theorem readFrom_resumes (hopen : (h.reader parseReal bytes).openSerial = .ok o)
    (parallel : Option ParallelSource) (signals : List Signal) {e1 e2 : Nat} (hle : e1 ≤ e2) :
    let r : Reader := { (h.reader parseReal bytes).opened o with parallel := parallel }
    ∃ recs, (∀ start, start = none ∨ start = some r.bodyStart →
        ∃ left, r.Reads signals e2 start recs left) ∧
      (∀ pre rec post, recs = pre ++ rec :: post →
        ∃ left, r.Reads signals e2 (some rec.position) (rec :: post) left) ∧
      ∀ start, start = none ∨ start = some r.bodyStart →
        ∃ before after left1 left2, r.Reads signals e1 start before left1 ∧
          r.Reads signals e2 (some left1) after left2 ∧ recs = before ++ after ∧
          (∀ rec ∈ before, rec.time ≤ e1) ∧ ∀ rec ∈ after, e1 < rec.time := by
  intro r
  have haccepted : Accepted r r.bytes.length r.bodyStart := by
    obtain ⟨v, fin, out, hrun, htokens, htime, hblock, hfits⟩ := Accepted.bodyStart hopen
    exact ⟨v, fin, out, hrun, htokens, htime, hblock, hfits.written, hfits.length, hfits.seen⟩
  obtain ⟨all, hall⟩ := Reader.remains_of_accepted signals haccepted
  have hsorted := hall.sorted.2
  have hstart : ∀ start, start = none ∨ start = some r.bodyStart →
      r.Remains signals (start.getD r.bodyStart) all ∧ (start.getD r.bodyStart).time = 0 := by
    rintro start (rfl | rfl) <;> exact ⟨hall, rfl⟩
  refine ⟨all.takeWhile fun rec => rec.time ≤ e2, fun start hs => ?_, fun pre rec post hsplit => ?_,
    fun start hs => ?_⟩
  · obtain ⟨hremains, hzero⟩ := hstart start hs
    have hbefore : (start.getD r.bodyStart).time ≤ e2 := hzero ▸ Nat.zero_le _
    obtain ⟨left, hreads, -, -⟩ := hremains.reads hbefore
    exact ⟨left, hreads⟩
  · -- The record is delivered, so it and its position are at ticks up to the end.
    have hup : ∀ behind ∈ rec :: post, decide (behind.time ≤ e2) = true := by
      intro behind hbehind
      have hmem : behind ∈ all.takeWhile fun rec => rec.time ≤ e2 :=
        hsplit ▸ List.mem_append_right _ hbehind
      simpa using List.mem_takeWhile_imp hmem
    have hremains : r.Remains signals rec.position
        (rec :: (post ++ all.dropWhile fun rec => rec.time ≤ e2)) := by
      have hwhole : (all.takeWhile fun rec => rec.time ≤ e2) ++
          (all.dropWhile fun rec => rec.time ≤ e2) = all := List.takeWhile_append_dropWhile
      rw [hsplit, List.append_assoc, List.cons_append] at hwhole
      rw [← hwhole] at hall
      exact hall.record
    have htime : rec.position.time ≤ e2 :=
      (hremains.sorted.1 rec (by simp)).trans (of_decide_eq_true (hup rec (by simp)))
    obtain ⟨left, hreads, -, -⟩ : ∃ left, r.Reads signals e2 (some rec.position) _ left ∧ _ ∧ _ :=
      Reader.Remains.reads hremains htime
    have htake : (rec :: (post ++ all.dropWhile fun rec => rec.time ≤ e2)).takeWhile
        (fun rec => rec.time ≤ e2) = rec :: post := by
      rw [← List.cons_append, List.takeWhile_append_of_pos hup]
      have hnone : (all.dropWhile fun rec => decide (rec.time ≤ e2)).takeWhile
          (fun rec => decide (rec.time ≤ e2)) = [] := by
        have := Reader.takeWhile_split all (le_refl e2)
        exact List.self_eq_append_right.1 this
      rw [hnone, List.append_nil]
    rw [htake] at hreads
    exact ⟨left, hreads⟩
  · obtain ⟨hremains, hzero⟩ := hstart start hs
    have hbefore : (start.getD r.bodyStart).time ≤ e1 := hzero ▸ Nat.zero_le _
    obtain ⟨left1, hreads1, htime, hrest⟩ := hremains.reads hbefore
    obtain ⟨left2, hreads2, -, -⟩ : ∃ left2, r.Reads signals e2 (some left1) _ left2 ∧ _ ∧ _ :=
      Reader.Remains.reads hrest (htime.trans hle)
    refine ⟨_, _, left1, left2, hreads1, hreads2, Reader.takeWhile_split all hle,
      fun rec hrec => by simpa using List.mem_takeWhile_imp hrec, fun rec hrec => ?_⟩
    exact Reader.lt_of_mem_dropWhile hsorted rec ((List.takeWhile_sublist _).subset hrec)

/-- The records that a read without failures hands to a visitor that keeps them. -/
def Reader.collected (r : Reader) (signals : List Signal) (stop : Nat)
    (position : Option Position) : List Record :=
  (r.readFrom .none (fun _ => none) signals stop position
    (fun seen rec => (seen ++ [rec], (.continue : ControlFlow Unit))) []).2.1

/-- They are those of the read. -/
theorem Reader.Reads.collected {r : Reader} {signals : List Signal} {stop : Nat}
    {position : Option Position} {recs : List Record} {left : Position}
    (h : r.Reads signals stop position recs left) (hserial : r.parallel = none) :
    r.collected signals stop position = recs := by
  have hread := h _ Unit r.position (fun _ => none)
    (fun seen rec => (seen ++ [rec], .continue)) ([] : List Record) fun _ => by rw [hserial]; rfl
  rw [visit_push] at hread
  exact congrArg (·.2.1) hread

/-- A value inside a dump block and two after it. A read up to tick 1 delivers the first two, and
reading on from the position it leaves delivers the third one only. -/
theorem readFrom_resumes_block :
    let h : Header := ⟨0, [(ascii "!", 0)], [], [.bits 1]⟩
    let bytes := ascii "$dumpvars\n1!\n$end\n#1\n0!\n#4\n1!\n"
    let r : Reader := { (h.reader (fun _ => none) bytes).opened ⟨some ⟨0, 4⟩, [], [.bits 1]⟩ with
      parallel := none }
    let bit : Signal := ⟨0, 0, false, .bits 1, .bits 1, 0⟩
    ∃ before after left1 left2, r.Reads [bit] 1 none before left1 ∧
      r.Reads [bit] 4 (some left1) after left2 ∧
      before.map (fun rec => (rec.time, rec.value)) =
        [(0, .bits (ascii "1")), (1, .bits (ascii "0"))] ∧
      after.map (fun rec => (rec.time, rec.value)) = [(4, .bits (ascii "1"))] := by
  intro h bytes r bit
  have hopen : (h.reader (fun _ => none) bytes).openSerial = .ok ⟨some ⟨0, 4⟩, [], [.bits 1]⟩ := by
    decide +kernel
  have hends : 1 ≤ 4 := by decide
  obtain ⟨recs, hwhole, -, hresumes⟩ := readFrom_resumes _ _ _ hopen none [bit] hends
  obtain ⟨left, hread⟩ := hwhole none (.inl rfl)
  obtain ⟨before, after, left1, left2, hbefore, hafter, hrecs, -⟩ := hresumes none (.inl rfl)
  have hfirst : (r.collected [bit] 1 none).map
      (fun rec => (rec.time, rec.value)) =
        [(0, .bits (ascii "1")), (1, .bits (ascii "0"))] := by decide +kernel
  have hall : (r.collected [bit] 4 none).map
      (fun rec => (rec.time, rec.value)) =
        [(0, .bits (ascii "1")), (1, .bits (ascii "0")), (4, .bits (ascii "1"))] := by
    decide +kernel
  rw [hbefore.collected rfl] at hfirst
  rw [hread.collected rfl, hrecs, List.map_append, hfirst] at hall
  exact ⟨before, after, left1, left2, hbefore, hafter, hfirst, List.append_cancel_left hall⟩

end

end Ondas.Vcd
