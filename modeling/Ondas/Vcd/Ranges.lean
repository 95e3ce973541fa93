import Ondas.Vcd.ParallelOpen
import Ondas.Vcd.Resume

/-!
# Reading ranges of a file

The queries that read a body in chunks walk each range between two cuts alone, with a fresh walk
that starts at tick 0. A walk over a source that grows into another one goes on in that one too
(`query_grows`): where it leaves at a timestamp past its end the other walk leaves, and where its
input ends the other walk stands before what follows.

A range that ends at `b` is the end of the file cut at `b` (`Reader.upTo`), so what remains after a
position of a range is what remains in that file. When the ranges of a body all opened, each of them
holds some records, and the body holds them one after another (`Parted`).
-/

namespace Ondas.Vcd

open Library

/-! ## Walks over a longer source -/

section
variable {args args' : WalkArgs} {S : List Nat}

/-- Where a walk leaves, a walk that agrees with it and has the same end leaves. -/
theorem Walk.act_leave_agree (hstop : args'.stop = args.stop) {w w' v : Walk} (hagree : w.Agree w')
    {offset : Nat} {i : Item} (h : act args offset w i = .leave v) :
    act args' offset w' i =
      .leave { w' with position := some ⟨offset, w'.time, w'.block⟩ } := by
  obtain ⟨digits, n, rfl, hn, hlt, hle, hblock, -⟩ := act_leave h
  have htime : ¬ n < w'.time := by rw [hagree.time]; omega
  simp only [act, stamp, hagree.block, hblock, hn, Bool.false_eq_true, if_false]
  rw [if_neg htime, if_pos (hstop ▸ hlt)]

/-- A walk that ended where its input does. -/
structure Walk.EndsAt (w fin : Walk) (tokens : Tokens) : Prop where
  item : w.tokens.item w.block = .ok (none, tokens)
  block : w.block = false
  time : fin.time = w.time
  position : fin.position = some (w.position.getD ⟨tokens.offset, w.time, false⟩)

/-- How a query walk over a longer source goes, when a walk over a shorter one ended well: it leaves
at the same timestamp, or it comes to where the shorter source ends. -/
inductive GoesOn (args' : WalkArgs) (w w' fin : Walk) (recs : List Record) : Prop
  | leaves {out' : List Emit} {fin' : Walk} {p : Position} :
    Runs (walkStep args') w' out' (.ok fin') → records out' = recs → fin.position = some p →
    fin'.position = some p → p.offset < w.tokens.offset + w.tokens.input.length →
    args'.stop < u64Max → GoesOn args' w w' fin recs
  | ends {out' : List Emit} {c s : Walk} {tokens : Tokens} : Steps (walkStep args') w' out' s →
    records out' = recs → w.tokens.Advances c.tokens → c.position = none → s.position = none →
    c.Agree s → c.tokens.Grows s.tokens → c.EndsAt fin tokens → GoesOn args' w w' fin recs

/-- A step before does not change how a walk goes on. -/
theorem GoesOn.step {w v w' v' fin : Walk} {recs more : List Record} {out' : List Emit}
    (hstep : walkStep args' w' = (out', .next v')) (hrecs : records out' = recs)
    (hadv : w.tokens.Advances v.tokens) (h : GoesOn args' v v' fin more) :
    GoesOn args' w w' fin (recs ++ more) := by
  subst hrecs
  cases h with
  | leaves hrun hmore hp hp' hlt hend =>
    refine .leaves (.next hstep hrun) (by rw [records_append, hmore]) hp hp' ?_ hend
    obtain ⟨used, hin, hoff, -⟩ := hadv
    rw [hin, List.length_append]
    omega
  | ends hsteps hmore hadv' hc hs hagree hgrow hend =>
    exact .ends ((Steps.single hstep).trans hsteps) (by rw [records_append, hmore])
      (hadv.trans hadv') hc hs hagree hgrow hend

/-- A walk that stops well over a shorter source: the walk over the longer one leaves too, or the
shorter source ends. -/
theorem stop_grows (hstop : args'.stop = args.stop) {w w' fin : Walk} (hagree : w.Agree w')
    (hgrow : w.tokens.Grows w'.tokens) (hposition : w.position = none)
    (hposition' : w'.position = none)
    {out : List Emit} (h : walkStep args w = (out, .stop (.ok fin))) :
    GoesOn args' w w' fin (records out) := by
  obtain ⟨hnil, last, ⟨e, -, hr⟩ | ⟨tokens, hitem, hr⟩ | ⟨i, tokens, v, hitem, hact, hr⟩ |
    ⟨i, tokens, e, -, -, hr⟩⟩ := walkStep_stop h
  · cases hr
  · obtain ⟨hblock, rfl⟩ := Walk.finish_eq hr.symm
    rw [hnil]
    refine .ends (.refl w') rfl (.refl _) hposition hposition' hagree hgrow ⟨hitem, hblock, rfl, ?_⟩
    show some (w.position.getD ⟨tokens.offset, w.time, w.block⟩) = _
    rw [show w.block = false from hblock]
  · obtain ⟨digits, n, rfl, hn, hlt, hle, hblock, rfl⟩ := Walk.act_leave hact
    obtain ⟨-, rfl⟩ := Walk.finish_eq hr.symm
    obtain ⟨u, hitem', hgrow'⟩ := Tokens.item_grows hgrow hitem
    rw [← hagree.block] at hitem'
    obtain ⟨marks, last', hmarks, hstep⟩ := walkStep_eq args' w'
    have hag : Walk.Agree { w with tokens := tokens, lastProgress := last }
        { w' with tokens := u, lastProgress := last' } :=
        ⟨hagree.time, hagree.block, hagree.encodings⟩
    have hoff : w'.tokens.offset = w.tokens.offset := hgrow.1
    have hact' := Walk.act_leave_agree hstop hag hact
    rw [← hoff] at hact'
    have hturn := walkTurn_leave (w := { w' with lastProgress := last' }) marks hitem' hact'
    have hleave : Walk.LeavesAt args' w'.tokens.offset
        { w' with tokens := u, lastProgress := last' } n _ :=
      ⟨hstop ▸ hlt, hagree.time ▸ hle, hagree.block.trans hblock, rfl⟩
    rw [hleave.finish, ← hstep] at hturn
    obtain ⟨⟨used, hin, -, -⟩, hshorter⟩ := Tokens.item_advances hitem
    rw [hnil]
    refine .leaves (.stop hturn) hmarks (p := ⟨w.tokens.offset, w.time, w.block⟩) rfl ?_ ?_
      (hstop ▸ Nat.lt_of_lt_of_le hlt (integer_le hn))
    · show some (⟨w'.tokens.offset, w'.time, w'.block⟩ : Position) = _
      rw [hoff, hagree.time, hagree.block]
    · show w.tokens.offset < _
      have := hshorter rfl
      omega
  · cases hr

/-- Over a longer source a query walk goes on as over a shorter one, by induction on its run. -/
theorem query_grows (hsame : args.Same args') (hsel : args.selected = some S)
    (hstop : args'.stop = args.stop) {w fin : Walk} {out : List Emit}
    (h : Runs (walkStep args) w out (.ok fin)) : ∀ w', w.Agree w' → w.tokens.Grows w'.tokens →
      w.time ≤ args.stop → w.position = none → w'.position = none →
      GoesOn args' w w' fin (records out) := by
  generalize hr : Except.ok (ε := Error) fin = result at h
  induction h with
  | stop hs =>
    subst hr
    exact fun w' hagree hgrow _ hp hp' => stop_grows hstop hagree hgrow hp hp' hs
  | @next w v emitted out result hs hrest ih =>
    intro w' hagree hgrow htime hp hp'
    obtain ⟨i, tokens, last, hitem, hact⟩ := walkStep_next hs
    have hgoes := Walk.act_next hact
    have hv : v.time ≤ args.stop := by
      by_cases heq : v.time = w.time
      · rw [heq]; exact htime
      · exact hgoes.stop heq
    rcases walkStep_query hsame hsel hagree hgrow hs with
      ⟨out', v', hs', hrecs, hagree', hgrow'⟩ | ⟨out', v', -, -, -, hlt, -⟩
    · rw [records_append]
      refine .step hs' hrecs ?_ (ih hr v' hagree' hgrow' hv (hgoes.position.trans hp) ?_)
      · rw [hgoes.tokens]
        exact (Tokens.item_advances hitem).1
      · obtain ⟨_, _, _, -, hact'⟩ := walkStep_next hs'
        exact (Walk.act_next hact').position.trans hp'
    · rw [hstop] at hlt
      omega

end

/-! ## Ranges -/

namespace Reader

variable {r : Reader} {signals : List Signal}

/-- The reader over the file cut at `b`. -/
def upTo (r : Reader) (b : Nat) : Reader := { r with bytes := r.bytes.take b }

/-- The file up to its end is the file. -/
theorem upTo_length : r.upTo r.bytes.length = r := by
  unfold upTo
  rw [List.take_length]

/-- A source of the file cut at `b` is that of a chunk that ends there. -/
theorem startAt_upTo {b : Nat} (hb : b ≤ r.bytes.length) (p : Position) :
    ((r.upTo b).startAt p).tokens = chunkTokens r.bytes p.offset b := by
  refine (tokensFrom_eq (r.bytes.take b) p.offset).trans ?_
  unfold chunkTokens
  rw [List.length_take, Nat.min_eq_left hb, List.drop_take, List.take_take, Nat.min_self]

/-- Nothing remains at the end of a file. -/
theorem remains_end {b : Nat} (hb : b = r.bytes.length) {p : Position} (hp : p.offset = b)
    {recs : List Record} (h : r.Remains signals p recs) : recs = [] := by
  obtain ⟨out, fin, hrun, rfl⟩ := remains_iff.1 h
  have hbefore : Before r.bytes r.bytes.length (r.startAt p).tokens := by
    refine ⟨[], ?_, nofun, ?_, rfl⟩
    · show r.bytes.drop p.offset = _
      rw [hp, hb, List.nil_append]
    · rw [List.length_nil, Nat.add_zero]
      exact hp.trans hb
  cases hrun with
  | stop hs => exact stop_records hs
  | next hs _ =>
    obtain ⟨i, tokens, last, hitem, -⟩ := walkStep_next hs
    rw [hbefore.finished] at hitem
    cases hitem

/-- What a timestamp at `b`, or the end of the file there, makes of what is ahead of a walk that
stands before it: it remains after `b`, whatever earlier tick the position names. -/
theorem Ahead.before {w : Walk} {recs : List Record} {b : Nat} (h : r.Ahead signals w recs)
    (hw : r.Stands w) (hbefore : Before r.bytes b w.tokens) (hblock : w.block = false)
    (hnext : b = r.bytes.length ∨ r.bytes[b]? = some 35) {time : Nat} (htime : time ≤ w.time) :
    r.Remains signals ⟨b, time, false⟩ recs := by
  have hstart : (r.startAt ⟨b, time, false⟩).tokens = chunkTokens r.bytes b r.bytes.length :=
    tokensFrom_eq r.bytes b
  obtain ⟨out, fin, hrun, rfl⟩ := h
  cases hrun with
  | stop hs =>
    obtain ⟨tokens, hitem, -⟩ := stop_end hs
    obtain ⟨hblank, -, -⟩ := Tokens.nextInto_none (Tokens.item_none hitem)
    rw [stop_records hs]
    rcases hnext with rfl | hstamp
    · have hfinished : (r.startAt ⟨r.bytes.length, time, false⟩).tokens.item false =
          .ok (none, chunkTokens r.bytes r.bytes.length r.bytes.length) := by
        rw [hstart, ← hbefore.item false]
        exact hbefore.finished false
      exact (Stands.start r ⟨r.bytes.length, time, false⟩).ended hfinished rfl
    · -- The timestamp is not blank.
      obtain ⟨gap, hin, -, -⟩ := hbefore
      have hmem : (35 : UInt8) ∈ w.tokens.input := by
        rw [hin]
        refine List.mem_append_right _ (List.mem_of_getElem? (i := 0) ?_)
        rw [List.getElem?_drop, Nat.add_zero]
        exact hstamp
      exact absurd (hblank 35 hmem) (by decide)
  | @next _ v emitted out _ hs hrest =>
    obtain ⟨i, tokens, last, hitem, hact⟩ := walkStep_next hs
    rw [hblock, hbefore.item] at hitem
    rcases hnext with rfl | hstamp
    · have hfinished := hbefore.finished false
      rw [hbefore.item, hitem] at hfinished
      cases hfinished
    obtain ⟨digits, rfl⟩ := item_stamp hstamp hitem
    obtain ⟨n, hn, -, hle, hstop, hnil, rfl⟩ := Walk.stamp_next hact
    have hitem' : (r.startAt ⟨b, time, false⟩).tokens.item (r.startAt ⟨b, time, false⟩).block =
        .ok (some (.stamp digits), tokens) := by
      rw [hstart]
      exact hitem
    have hturn := @walkTurn_next (r.queryArgs signals u64Max) (r.startAt ⟨b, time, false⟩) _ tokens
      _ _ [] hitem' (Walk.stamp_accepts b hn rfl (htime.trans hle) hstop)
    rw [← walkStep_plain rfl] at hturn
    obtain ⟨result, hrun', hresult⟩ := runs_same rfl rfl hrest
      (show Walk.Same _ { r.startAt ⟨b, time, false⟩ with
        tokens := tokens, time := n, span := some ⟨n, n⟩ } from
      ⟨rfl, rfl, hblock.symm, hw.encodings.symm, hw.position.symm⟩)
    cases result with
    | error e => exact hresult.elim
    | ok fin' =>
      refine remains_iff.2 ⟨_, fin', .next hturn hrun', ?_⟩
      simp only [records_append, hnil, List.map_nil, List.nil_append]

/-- The walk that reads on from a position stays one of the reader. -/
theorem Stands.steps {stop : Nat} {w w' : Walk} {out : List Emit} (h : r.Stands w)
    (hsteps : Steps (walkStep (r.queryArgs signals stop)) w out w') : r.Stands w' :=
  hsteps.invariant (fun _ _ _ hw hs => hw.step hs) h

/-- Where a walk over a range comes to its end, the walk over the file stands before that end. -/
theorem ends_before {b : Nat} (hseal : SealedAt r.bytes b) {p : Position} (hp : p.offset ≤ b)
    {c s fin : Walk} {tokens : Tokens}
    (hadv : ((r.upTo b).startAt p).tokens.Advances c.tokens) (hs : r.Stands s) (hagree : c.Agree s)
    (hgrow : c.tokens.Grows s.tokens) (hend : c.EndsAt fin tokens) :
    Before r.bytes b s.tokens ∧ s.block = false ∧ tokens.offset = b := by
  rw [startAt_upTo hseal.le] at hadv
  have hof : c.tokens.Of r.bytes b :=
    Tokens.Of.advances (t := chunkTokens r.bytes p.offset b) rfl hadv
  have hle : c.tokens.offset ≤ b := by
    obtain ⟨used, hin, hoff, -⟩ := hadv
    have hlength := congrArg List.length hin
    simp only [chunkTokens, List.length_append, List.length_take] at hlength hoff
    omega
  have hfile : s.tokens = chunkTokens r.bytes c.tokens.offset r.bytes.length := by
    have htokens := hs.tokens
    rw [Tokens.Of, hgrow.1] at htokens
    exact htokens
  have hsplit : Split r.bytes b c.tokens s.tokens := ⟨hof, hfile, hle⟩
  obtain ⟨hbefore, hoff⟩ := hsplit.ends hseal hend.item
  exact ⟨hbefore, hagree.block.trans hend.block, hoff⟩

/-- What remains after a position of the file is what remains in a range, and what is ahead of the
walk that stands where the range ends. -/
theorem Remains.split {b : Nat} (hseal : SealedAt r.bytes b) {p : Position} (hp : p.offset ≤ b)
    (htime : p.time ≤ u64Max) {part whole : List Record} (hpart : (r.upTo b).Remains signals p part)
    (hwhole : r.Remains signals p whole) :
    ∃ rest s, whole = part ++ rest ∧ r.Ahead signals s rest ∧ r.Stands s ∧
      Before r.bytes b s.tokens ∧ s.block = false := by
  obtain ⟨out, fin, hrun, rfl⟩ := remains_iff.1 hpart
  obtain ⟨all, last, hall, rfl⟩ := remains_iff.1 hwhole
  have hgrow : ((r.upTo b).startAt p).tokens.Grows (r.startAt p).tokens := by
    have hfile : (r.startAt p).tokens = chunkTokens r.bytes p.offset r.bytes.length :=
      tokensFrom_eq r.bytes p.offset
    rw [startAt_upTo hseal.le, hfile]
    exact (Split.start hp).grows hseal
  have hsame : (r.queryArgs signals u64Max).Same (r.queryArgs signals u64Max) :=
    ⟨rfl, rfl, rfl, rfl⟩
  have hgoes := query_grows hsame rfl rfl hrun (r.startAt p) ⟨rfl, rfl, rfl⟩ hgrow htime rfl rfl
  cases hgoes with
  | leaves _ _ _ _ _ hlt => exact absurd hlt (lt_irrefl u64Max)
  | @ends out' c s tokens hsteps hrecs hadv _ _ hagree hgrow' hend =>
    have hs := (Stands.start r p).steps hsteps
    obtain ⟨hbefore, hblock, -⟩ := ends_before hseal hp hadv hs hagree hgrow' hend
    obtain ⟨tail, rfl, hrest⟩ := hsteps.rest hall
    exact ⟨records tail,
      s, by rw [records_append, hrecs], ⟨tail, last, hrest, rfl⟩, hs, hbefore, hblock⟩

/-! ## The parts of a body -/

/-- The ranges between cuts hold parts of what remains after the first of them, one after the
other. -/
inductive Parted (r : Reader) (signals : List Signal) : List Nat → List (List Record) → Prop
  | last {a : Nat} {part : List Record} : a ≤ r.bytes.length →
    r.Remains signals ⟨a, 0, false⟩ part → Parted r signals [a, r.bytes.length] [part]
  | cut {a b : Nat} {cuts : List Nat} {part : List Record} {parts : List (List Record)} : a ≤ b →
    SealedAt r.bytes b → (r.upTo b).Remains signals ⟨a, 0, false⟩ part →
    r.Remains signals ⟨a, 0, false⟩ (part ++ parts.flatten) → Parted r signals (b :: cuts) parts →
    Parted r signals (a :: b :: cuts) (part :: parts)

/-- All parts remain after the first cut. -/
theorem Parted.remains {cuts : List Nat} {parts : List (List Record)}
    (h : Parted r signals cuts parts)
    {a : Nat} (ha : cuts.head? = some a) : r.Remains signals ⟨a, 0, false⟩ parts.flatten := by
  cases h with
  | last _ hpart =>
    cases ha
    rw [List.flatten_singleton]
    exact hpart
  | cut _ _ _ hwhole _ =>
    cases ha
    exact hwhole

/-- **The body holds what its ranges hold.** When a walk over each range ends well, the records of
the ranges are what the file holds, by induction on the cuts. -/
theorem parted {cuts : List Nat} (hcut : Cutting r.bytes cuts)
    (hranges : ∀ range ∈ windows cuts, ∃ part,
      (r.upTo range.2).Remains signals ⟨range.1, 0, false⟩ part) :
    ∀ {a : Nat} {whole : List Record}, cuts.head? = some a → r.Remains signals ⟨a, 0, false⟩ whole →
      ∃ parts, Parted r signals cuts parts ∧ parts.flatten = whole := by
  induction hcut with
  | @last start hle =>
    rintro a whole ha hwhole
    cases ha
    exact ⟨[whole], .last hle hwhole, List.flatten_singleton⟩
  | @cut start b cuts hle hline hstamp _ ih =>
    rintro a whole ha hwhole
    cases ha
    have hseal : SealedAt r.bytes b := .of_cut hline hstamp
    obtain ⟨part, hpart⟩ := hranges (start, b) (.head _)
    obtain ⟨rest, s, rfl, hahead, hs, hbefore, hblock⟩ :=
      hpart.split hseal hle (Nat.zero_le _) hwhole
    have hrest := hahead.before hs hbefore hblock (.inr hstamp) (Nat.zero_le _)
    obtain ⟨parts, hparts, rfl⟩ := ih (fun range hmem => hranges range (.tail _ hmem)) rfl hrest
    exact ⟨part :: parts, .cut hle hseal hpart hwhole hparts, rfl⟩

/-! ## Ranges with an end -/

/-- What a walk over a range, whose reads may fail from some byte on, delivers up to an end. -/
def Ranged (r : Reader) (fault : Option (Nat × String)) (signals : List Signal) (stop : Nat)
    (range : Nat × Nat) (recs : List Record) (result : Except Error Walk) : Prop :=
  (r.upTo range.2).Delivers ⟨none, fault⟩ signals stop ⟨range.1, 0, false⟩ recs result

/-- A walk that ends well does not need the reads that fail. -/
theorem Ranged.unfailing {fault : Option (Nat × String)} {stop : Nat} {range : Nat × Nat}
    {recs : List Record} {fin : Walk} (h : r.Ranged fault signals stop range recs (.ok fin)) :
    ∃ fin', r.Ranged none signals stop range recs (.ok fin') ∧ fin'.position = fin.position := by
  cases fault with
  | none => exact ⟨fin, h, rfl⟩
  | some limit =>
    obtain ⟨out, rfl, hrun⟩ := h
    have hgrow := (tokensFrom_cut (r.bytes.take range.2) ⟨none, some limit⟩ range.1).1
    rw [← tokensFrom_eq] at hgrow
    have hsame : (r.queryArgs signals stop).Same ((r.upTo range.2).queryArgs signals stop) :=
      ⟨rfl, rfl, rfl, rfl⟩
    have hgoes := query_grows hsame rfl rfl hrun ((r.upTo range.2).startAt ⟨range.1, 0, false⟩)
      ⟨rfl, rfl, rfl⟩ hgrow
      (Nat.zero_le _) rfl rfl
    cases hgoes with
    | @leaves out' fin' p hrun' hrecs hp hp' _ _ =>
      exact ⟨fin', ⟨out', hrecs.symm, hrun'⟩, hp'.trans hp.symm⟩
    | ends _ _ hadv _ _ _ _ hend =>
      -- The input of the walk ends with the failure.
      obtain ⟨-, hnone, -⟩ := Tokens.nextInto_none (Tokens.item_none hend.item)
      obtain ⟨-, -, -, hfault⟩ := hadv
      cases hfault.symm.trans hnone

/-- A walk over a range that ends well delivers its records up to the end. It leaves in the range,
at the position where the file's walk leaves; or it comes to where the range ends. -/
theorem Ranged.until {fault : Option (Nat × String)} {stop a b : Nat} {recs part : List Record}
    {fin : Walk} (h : r.Ranged fault signals stop (a, b) recs (.ok fin))
    (hseal : SealedAt r.bytes b)
    (hle : a ≤ b) (hpart : (r.upTo b).Remains signals ⟨a, 0, false⟩ part) :
    recs = (part.takeWhile fun rec => rec.time ≤ stop) ∧ ∃ p, fin.position = some p ∧
    p.time ≤ stop ∧
      ((p.offset < b ∧ ∃ fin', r.Delivers .none signals stop ⟨a, 0, false⟩ recs (.ok fin') ∧
          fin'.position = some p) ∨
        p.offset = b ∧ recs = part ∧ p.block = false) := by
  obtain ⟨fin', ⟨out, hout, hrun⟩, hposition⟩ := h.unfailing
  obtain ⟨v, p, ⟨out', hrecs, hrun'⟩, hp, hstop, hrest⟩ := hpart.until (Nat.zero_le stop)
  obtain ⟨rfl, heq⟩ := hrun.unique hrun'
  cases heq
  have htake : recs = part.takeWhile fun rec => rec.time ≤ stop := hout.trans hrecs.symm
  refine ⟨htake, p, hposition.symm.trans hp, hstop, ?_⟩
  have hgrow : ((r.upTo b).startAt ⟨a, 0, false⟩).tokens.Grows
      (r.startAt ⟨a, 0, false⟩).tokens := by
    have hfile : (r.startAt ⟨a, 0, false⟩).tokens = chunkTokens r.bytes a r.bytes.length :=
      tokensFrom_eq r.bytes a
    rw [startAt_upTo hseal.le, hfile]
    exact (Split.start hle).grows hseal
  have hsame : ((r.upTo b).queryArgs signals stop).Same (r.queryArgs signals stop) :=
    ⟨rfl, rfl, rfl, rfl⟩
  have hgoes := query_grows hsame rfl rfl hrun (r.startAt ⟨a, 0, false⟩) ⟨rfl, rfl, rfl⟩ hgrow
    (Nat.zero_le _) rfl rfl
  cases hgoes with
  | @leaves out' fin₁ p₁ hrun₁ hrecs₁ hp₁ hp₁' hlt _ =>
    obtain rfl : p₁ = p := Option.some.inj (hp₁.symm.trans hp)
    refine .inl ⟨?_, fin₁, ⟨out', hout.trans hrecs₁.symm, hrun₁⟩, hp₁'⟩
    have hlength : ((r.upTo b).startAt ⟨a, 0, false⟩).tokens.input.length ≤ b - a := by
      rw [startAt_upTo hseal.le]
      exact List.length_take_le _ _
    have hbelow : p₁.offset < a + ((r.upTo b).startAt ⟨a, 0, false⟩).tokens.input.length := hlt
    omega
  | @ends out' c s tokens hsteps _ hadv hc _ hagree hgrow' hend =>
    have hs := (Stands.start r ⟨a, 0, false⟩).steps hsteps
    obtain ⟨-, -, hoff⟩ := ends_before hseal (p := ⟨a, 0, false⟩) hle hadv hs hagree hgrow' hend
    have hend' := hend.position
    rw [hp, hc, Option.some.injEq] at hend'
    subst hend'
    have hnone : (part.dropWhile fun rec => rec.time ≤ stop) = [] := by
      refine remains_end (r := r.upTo b) ?_ hoff hrest
      exact (List.length_take_of_le hseal.le).symm
    refine .inr ⟨hoff, ?_, rfl⟩
    rw [htake, ← List.append_nil (part.takeWhile _), ← hnone, List.takeWhile_append_dropWhile]

end Reader

/-! ## Ranges of a body that opened -/

section
variable {declared : List Encoding}

/-- A merge keeps what was seen, and sees strings only in declared reals. -/
structure Merge.Collects (declared : List Encoding) (m m' : Merge) : Prop where
  real : ∀ i, m.sawReal.getD i false = true → m'.sawReal.getD i false = true
  string : ∀ i, m.sawString.getD i false = true → m'.sawString.getD i false = true
  declared : ∀ i, m'.sawString.getD i false = true →
    m.sawString.getD i false = true ∨ declared.getD i .unsupported = .real
  sizes : m.sawReal.length = m'.sawReal.length ∧ m.sawString.length = m'.sawString.length

/-- What chunks collect one after the other they collect together. -/
theorem Merge.Collects.trans {m m' m'' : Merge} (h : Collects declared m m')
    (h' : Collects declared m' m'') : Collects declared m m'' where
  real i hi := h'.real i (h.real i hi)
  string i hi := h'.string i (h.string i hi)
  declared i hi := (h'.declared i hi).elim (h.declared i) .inr
  sizes := ⟨h.sizes.1.trans h'.sizes.1, h.sizes.2.trans h'.sizes.2⟩

/-- A merge of one chunk collects what the chunk read. -/
theorem Merge.part_collects {m m' : Merge} {index : Nat} {fin : Walk}
    (hreal : m.sawReal.length = declared.length) (hstring : m.sawString.length = declared.length)
    (h : m.part declared index fin = some m') : Collects declared m m' ∧
      ∀ i, (readsAs declared fin .real i = true → m'.sawReal.getD i false = true) ∧
        (readsAs declared fin .string i = true → m'.sawString.getD i false = true) := by
  obtain ⟨-, -, -, hr, hs⟩ := part_eq h
  have hr' : ∀ i, m'.sawReal.getD i false =
      (m.sawReal.getD i false || readsAs declared fin .real i) :=
      fun i => by rw [hr, getD_saw hreal]
  have hs' : ∀ i, m'.sawString.getD i false =
      (m.sawString.getD i false || readsAs declared fin .string i) :=
      fun i => by rw [hs, getD_saw hstring]
  refine ⟨⟨fun i hi => ?_, fun i hi => ?_, fun i hi => ?_, ?_⟩,
    fun i => ⟨fun hi => ?_, fun hi => ?_⟩⟩
  · rw [hr', hi, Bool.true_or]
  · rw [hs', hi, Bool.true_or]
  · rw [hs', Bool.or_eq_true] at hi
    exact hi.imp_right fun hread => (readsAs_iff.1 hread).2.1
  · rw [hr, hs, List.length_mapIdx, List.length_mapIdx]
    exact ⟨rfl, rfl⟩
  · rw [hr', hi, Bool.or_true]
  · rw [hs', hi, Bool.or_true]

/-- A merge of chunks is one of chunks that ended well, and collects what they read. -/
theorem mergeLoop_collects {parts : List (Except Error Walk)} : ∀ {index : Nat} {m m' : Merge},
    m.sawReal.length = declared.length → m.sawString.length = declared.length →
    mergeLoop declared index m parts = some m' → m.Collects declared m' ∧
      ∀ part ∈ parts, ∃ fin, part = .ok fin ∧
        ∀ i, (readsAs declared fin .real i = true → m'.sawReal.getD i false = true) ∧
          (readsAs declared fin .string i = true → m'.sawString.getD i false = true) := by
  induction parts with
  | nil =>
    intro index m m' _ _ h
    cases h
    exact ⟨⟨fun _ hi => hi, fun _ hi => hi, fun _ => .inl, rfl, rfl⟩,
      by rintro part hmem; cases hmem⟩
  | cons part parts ih =>
    intro index m m' hreal hstring h
    cases part with
    | error e => cases h
    | ok fin =>
      simp only [mergeLoop] at h
      split at h
      · cases h
      next m₁ hpart =>
      obtain ⟨hfirst, hsaw⟩ := Merge.part_collects hreal hstring hpart
      obtain ⟨hrest, hall⟩ := ih (hfirst.sizes.1.symm.trans hreal)
        (hfirst.sizes.2.symm.trans hstring) h
      refine ⟨hfirst.trans hrest, fun part hmem => ?_⟩
      rcases List.mem_cons.1 hmem with rfl | hmem
      · exact ⟨fin, rfl, fun i => ⟨fun hi => hrest.real i ((hsaw i).1 hi),
          fun hi => hrest.string i ((hsaw i).2 hi)⟩⟩
      · exact hall part hmem

/-- The merged encoding of a history that a chunk wrote is the one the chunk read it with. -/
theorem Merge.encodings_written {m' : Merge} {fin : Walk}
    (hstart : (Merge.start declared).Collects declared m')
    (hagrees : m'.Agrees) (hfin : fin.Derived declared)
    (hsaw : ∀ i, (readsAs declared fin .real i = true → m'.sawReal.getD i false = true) ∧
      (readsAs declared fin .string i = true → m'.sawString.getD i false = true))
    {i : Nat} (hi : fin.seen.getD i false = true) :
    (m'.encodings declared).getD i .unsupported = fin.encodings.getD i .unsupported := by
  have hmerged : (m'.encodings declared).getD i .unsupported =
      if m'.sawString.getD i false then .string else declared.getD i .unsupported := by
    have hlt : i < declared.length := by
      by_contra hout
      rw [List.getD_eq_getElem?_getD, List.getElem?_eq_none (by rw [hfin.seen]; omega)] at hi
      cases hi
    simp only [Merge.encodings, List.getD_eq_getElem?_getD, List.getElem?_mapIdx,
      List.getElem?_eq_getElem hlt, Option.map_some, Option.getD_some]
  have hnone : (Merge.start declared).sawString.getD i false = false := getD_replicate_false _ i
  rw [hmerged]
  rcases hfin.entry i with hsame | ⟨hreal, hstring, -⟩
  · rw [hsame]
    split
    · next hstring =>
      -- A chunk read strings there, so the declared real of this chunk is no string in another.
      rcases hstart.declared i hstring with hold | hreal
      · rw [hnone] at hold
        cases hold
      · exact absurd hstring fun hs =>
          hagrees i ((hsaw i).1 (readsAs_iff.2 ⟨hi, hreal, hsame.trans hreal⟩)) hs
    · rfl
  · rw [hstring, (hsaw i).2 (readsAs_iff.2 ⟨hi, hreal, hstring⟩)]
    rfl

end

/-- A cut seals what is before it. -/
theorem Cutting.sealed {bytes : List UInt8} {cuts : List Nat} (h : Cutting bytes cuts) :
    ∀ range ∈ windows cuts, range.1 ≤ range.2 ∧ SealedAt bytes range.2 := by
  induction h with
  | last hle =>
    intro range hmem
    obtain rfl := List.mem_singleton.1 hmem
    exact ⟨hle, .inl rfl⟩
  | cut hle hline hstamp _ ih =>
    intro range hmem
    rcases List.mem_cons.1 hmem with rfl | hmem
    · exact ⟨hle, .of_cut hline hstamp⟩
    · exact ih range hmem

/-- The reader after a body opened in chunks. -/
def Reader.chunked (r : Reader) (o : Opened) (source : ParallelSource) : Reader :=
  { r with encodings := o.encodings, parallel := some source }

section
variable {r : Reader} {cuts : List Nat} {o : Opened}

/-- Opening a body in chunks accepts the start of each of them. -/
theorem ranges_accepted (hcut : Cutting r.bytes cuts) (hopen : r.parallelOpenWithCuts cuts = some o)
    (source : ParallelSource) : ∀ range ∈ windows cuts,
      Accepted ((r.chunked o source).upTo range.2) ((r.chunked o source).upTo range.2).bytes.length
        ⟨range.1, 0, false⟩ := by
  intro range hmem
  have hle := (hcut.sealed range hmem).2.le
  have hlength : ((r.chunked o source).upTo range.2).bytes.length = range.2 :=
    List.length_take_of_le hle
  unfold Reader.parallelOpenWithCuts at hopen
  dsimp only at hopen
  split at hopen
  · cases hopen
  next m hloop =>
  split at hopen
  · cases hopen
  next hconflict =>
  cases hopen
  have hsizes : (Merge.start r.encodings).sawReal.length = r.encodings.length :=
    List.length_replicate
  obtain ⟨hcollects, hall⟩ := mergeLoop_collects hsizes List.length_replicate hloop
  obtain ⟨fin, hfin, hsaw⟩ := hall _ (List.mem_map_of_mem hmem)
  obtain ⟨out, result, hrun⟩ := walk_total r.openArgs
    (r.walk (chunkTokens r.bytes range.1 range.2) true none)
  rw [Reader.validate_eq hrun] at hfin
  subst hfin
  have hderived : fin.Derived r.encodings :=
    Walk.runs_derived hrun ⟨fun i => .inl rfl, rfl, List.length_replicate⟩
  refine ⟨_, fin, out, hrun, ?_, rfl, rfl, fun i hi => ?_, ?_, ?_⟩
  · rw [hlength]
    show (⟨(r.bytes.drop range.1).take (range.2 - range.1), range.1, none⟩ : Tokens) =
      ⟨((r.bytes.take range.2).drop range.1).take (range.2 - range.1), range.1, none⟩
    rw [List.drop_take, List.take_take, Nat.min_self]
  · exact Merge.encodings_written hcollects
      (Merge.agrees_of_conflict (Bool.eq_false_iff.2 hconflict))
      hderived hsaw hi
  · show (m.encodings r.encodings).length = _
    rw [Merge.encodings, List.length_mapIdx, hderived.encodings]
  · rw [hderived.seen, hderived.encodings]

/-- The start of a body that opened in chunks is accepted. -/
theorem chunked_accepted (hcut : Cutting r.bytes cuts) (hhead : cuts.head? = some r.body)
    (hopen : r.parallelOpenWithCuts cuts = some o) (source : ParallelSource) :
    Accepted (r.chunked o source)
      (r.chunked o source).bytes.length (r.chunked o source).bodyStart := by
  obtain ⟨v, fin, out, hrun, htokens, htime, hblock, hfits⟩ :=
    Accepted.bodyStart (parallelOpenWithCuts_serial hhead hcut hopen)
  exact ⟨v, fin, out, hrun, htokens, htime, hblock, hfits.written, hfits.length, hfits.seen⟩

/-- What a body that opened in chunks holds, cut at them. -/
theorem chunked_parted (hcut : Cutting r.bytes cuts) (hhead : cuts.head? = some r.body)
    (hopen : r.parallelOpenWithCuts cuts = some o) (source : ParallelSource)
    (signals : List Signal) :
    ∃ parts, (r.chunked o source).Parted signals cuts parts := by
  obtain ⟨whole, hwhole⟩ :=
    Reader.remains_of_accepted signals (chunked_accepted hcut hhead hopen source)
  obtain ⟨parts, hparts, -⟩ := Reader.parted (r := r.chunked o source) hcut
    (fun range hmem => Reader.remains_of_accepted signals
    (ranges_accepted hcut hopen source range hmem))
    hhead hwhole
  exact ⟨parts, hparts⟩

end

end Ondas.Vcd
