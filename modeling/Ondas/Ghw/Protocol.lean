import Ondas.Ghw.Window

/-!
# The event protocol of the GHW walk

What the walk hands to its visitor follows a protocol. Its abstract model is `Advance`: where the
walk stands without its input (`Pace`), and which events lead from one place to the next. Every step
of the walk is one of these moves, or several (`walkStep_advances`). The events of a run are then
the finished lists of one entered time after the other, each time closed by one tick, and those of
the time that is not complete yet (`Told`). Every move keeps this (`Told.advance`), so it holds of
every state reached and of the end of the run (`walk_protocol`).
-/

namespace Ondas.Ghw

open Library Wire

/-! ## Moves of the walk -/

/-- Where the walk stands, without its input. -/
structure Pace where
  clock : Clock
  footer : Bool
  phase : Phase

/-- Where a walk stands. -/
def Walk.pace (w : Walk) : Pace := ⟨w.clock, w.footer, w.phase⟩

/-- A time is entered between sections while there was no footer, or in a cycle. -/
def Pace.Enters (p : Pace) : Prop :=
  p.phase = .section ∧ p.footer = false ∨ ∃ time, p.phase = .increment time

/-- The moves of the walk, with the events they hand over. -/
inductive Advance (b : Body) : Pace → List Event → Pace → Prop
  | enter {p : Pace} {time : Int} {ticks : List Nat} {clock : Clock} {phase : Phase} :
      p.Enters → p.clock.enter time b.stop = .entered ticks clock →
      phase = .snapshot time 0 ∨ phase = .cycle time 0 →
      Advance b p (ticks.map .tick) ⟨clock, p.footer, phase⟩
  | scalar {clock : Clock} {footer : Bool} {time : Int} {rank : Nat} {s : ScalarEvent} :
      s.time = time.toNat → s.rank = rank →
      Advance b ⟨clock, footer, .snapshot time rank⟩ [.scalar s]
        ⟨clock, footer, .snapshot time (rank + 1)⟩
  | record {clock : Clock} {footer : Bool} {time : Int} {rank next : Nat} {s : ScalarEvent} :
      s.time = time.toNat → rank < next → s.rank = next - 1 →
      Advance b ⟨clock, footer, .cycle time rank⟩ [.scalar s] ⟨clock, footer, .cycle time next⟩
  | close {clock : Clock} {footer : Bool} {time : Int} {rank : Nat} :
      Advance b ⟨clock, footer, .snapshot time rank⟩ [.listEnd time.toNat]
        ⟨clock, footer, .section⟩
  | pause {clock : Clock} {footer : Bool} {time : Int} {rank : Nat} :
      Advance b ⟨clock, footer, .cycle time rank⟩ [.listEnd time.toNat]
        ⟨clock, footer, .increment time⟩
  | leave {clock : Clock} {footer : Bool} {time : Int} :
      Advance b ⟨clock, footer, .increment time⟩ [] ⟨clock, footer, .section⟩
  | footer {clock : Clock} {footer : Bool} {phase : Phase} :
      phase = .directory ∨ phase = .tailer →
      Advance b ⟨clock, footer, .section⟩ (if footer then [] else clock.completed.map .tick)
        ⟨clock, true, phase⟩
  | entries {clock : Clock} {footer : Bool} :
      Advance b ⟨clock, footer, .directory⟩ [] ⟨clock, footer, .section⟩

/-- The ends of the walk, with the events they hand over. -/
inductive Halt (b : Body) : Pace → List Event → Except Error (Option TimeSpan) → Prop
  | error {p : Pace} (e : Error) : Halt b p [] (.error e)
  | past {p : Pace} {time : Int} {ticks : List Nat} : p.Enters →
      p.clock.enter time b.stop = .ended ticks →
      Halt b p (ticks.map .tick) (.ok p.clock.span)
  | eof {clock : Clock} {footer : Bool} :
      Halt b ⟨clock, footer, .section⟩ (if footer then [] else clock.completed.map .tick)
        (.ok clock.span)
  | tailed {clock : Clock} {footer : Bool} : Halt b ⟨clock, footer, .tailer⟩ [] (.ok clock.span)

/-- The events of some emissions. -/
def told (out : List Emission) : List Event := out.map Emission.event

@[simp] theorem told_emit (w : Walk) (events : List Event) : told (events.map w.emit) = events := by
  rw [told, List.map_map]
  exact List.map_id _

/-- A step is a move or an end. -/
def Moved (b : Body) (p : Pace) : List Emission × Outcome Walk Walked → Prop
  | (out, .next v) => Advance b p (told out) v.pace
  | (out, .stop (r, _)) => Halt b p (told out) r

section
variable {b : Body} {w : Walk} {p : Pace}

/-- What follows a read that succeeds decides the move, and a failed read ends the walk. -/
theorem Walk.after_moved {α : Type} {x : Read α}
    {next : α → Walk → List Emission × Outcome Walk Walked}
    (hnext : ∀ a v, x w.wire = (.ok a, v.wire) → v.clock = w.clock → v.footer = w.footer →
      Moved b p (next a v)) : Moved b p (w.after x next) := by
  unfold Walk.after
  rcases hrun : x w.wire with ⟨e | a, wire⟩
  · exact .error e
  · exact hnext a _ hrun rfl rfl

/-- Entering a snapshot or a cycle moves the pace of the walk as its clock does. -/
theorem Walk.enter_moved (hclock : w.clock = p.clock) (hfooter : w.footer = p.footer)
    (henters : p.Enters) {time : Int} {phase : Phase}
    (hphase : phase = .snapshot time 0 ∨ phase = .cycle time 0) :
    Moved b p (w.enter b.stop time phase) := by
  unfold Walk.enter
  rw [hclock]
  cases henter : p.clock.enter time b.stop with
  | refused => exact .error _
  | ended ticks =>
    show Halt b p (told ((ticks.map Event.tick).map w.emit)) (.ok w.clock.span)
    rw [told_emit, hclock]
    exact .past henters henter
  | entered ticks clock =>
    have hevents : told (ticks.map fun time => w.emit (.tick time)) = ticks.map .tick := by
      rw [told, List.map_map]
      rfl
    show Advance b p (told (ticks.map fun time => w.emit (.tick time))) ⟨clock, w.footer, phase⟩
    rw [hevents, hfooter]
    exact .enter henters henter hphase

/-- A record of a cycle has a greater rank than the one before it. -/
theorem cycleRecord_next {types : Types} {active : Active} {rank next id offset : Nat}
    {value : Scalar} {wire wire' : Wire}
    (h : cycleRecord types active rank wire = (.ok (some (next, id, offset, value)), wire')) :
    rank < next := by
  obtain ⟨delta, v, -, hrest⟩ := Decoder.bind_eq_ok.1 h
  split at hrest
  · cases hrest
  next hzero =>
  obtain ⟨-, u, -, hrest⟩ := Decoder.bind_eq_ok.1 hrest
  cases hactive : active[rank + delta - 1]? with
  | none => rw [hactive] at hrest; cases hrest
  | some entry =>
    rw [hactive] at hrest
    obtain ⟨offset', t, -, hrest⟩ := Decoder.bind_eq_ok.1 hrest
    obtain ⟨value', t', -, hrest⟩ := Decoder.bind_eq_ok.1 hrest
    cases hrest
    omega

/-- Only the tailer follows a footer. -/
theorem sectionOf_footer {footer : Bool} {tag : List UInt8} {kind : Section} {wire wire' : Wire}
    (h : sectionOf footer tag wire = (.ok kind, wire')) (hkind : kind ≠ .tailer) :
    footer = false := by
  unfold sectionOf at h
  cases footer with
  | false => rfl
  | true =>
    split at h
    · cases h
    split at h
    · cases h
    split at h
    · cases h; exact absurd rfl hkind
    split at h <;> cases h

/-- Behind a directory only a tail is accepted. -/
theorem readSection_footer {footer : Bool} {kind : Section} {wire wire' : Wire}
    (h : readSection footer wire = (.ok (some kind), wire')) (hkind : kind ≠ .tailer) :
    footer = false := by
  obtain ⟨eof, v, -, hread⟩ := Decoder.bind_eq_ok.1 h
  cases eof with
  | true => cases hread
  | false =>
    obtain ⟨kind', v', htag, hpure⟩ := Decoder.bind_eq_ok.1 hread
    cases hpure
    obtain ⟨tag, u, -, hsection⟩ := Decoder.bind_eq_ok.1 htag
    exact sectionOf_footer hsection hkind

/-- A step in a cycle list moves the pace: it delivers a scalar of a greater rank or closes the
list. -/
theorem cycleStep_moved {time : Int} {rank : Nat} (hphase : w.phase = .cycle time rank) :
    Moved b w.pace (cycleStep b w time rank) := by
  refine Walk.after_moved fun record v hrun hclock hfooter => ?_
  have hpace : w.pace = ⟨w.clock, w.footer, .cycle time rank⟩ := by rw [← hphase]; rfl
  rw [hpace]
  cases record with
  | none =>
    show Advance b _ [.listEnd time.toNat] ⟨v.clock, v.footer, .increment time⟩
    rw [hclock, hfooter]
    exact .pause
  | some record =>
    obtain ⟨next, id, offset, value⟩ := record
    show Advance b _ [.scalar _] ⟨v.clock, v.footer, .cycle time next⟩
    rw [hclock, hfooter]
    exact .record rfl (cycleRecord_next hrun) rfl

/-- The ticks of a footer or of the end of the input. -/
theorem told_ticks (v : Walk) (footer : Bool) (ticks : List Nat) :
    told (if footer then [] else ticks.map fun time => v.emit (.tick time)) =
      if footer then [] else ticks.map .tick := by
  cases footer with
  | true => rfl
  | false =>
    show told (ticks.map fun time => v.emit (.tick time)) = ticks.map .tick
    rw [told, List.map_map]
    rfl

/-- A step without the window is a move or an end. -/
theorem walkStep_moved (b : Body) (w : Walk) : Moved b w.pace (walkStep b false w) := by
  obtain ⟨wire, clock, footer, phase⟩ := w
  unfold walkStep
  cases phase with
  | «section» =>
    refine Walk.after_moved fun kind v hrun hclock hfooter => ?_
    obtain ⟨wire', clock', footer', phase'⟩ := v
    dsimp only at hclock hfooter
    subst hclock hfooter
    cases kind with
    | none =>
      show Halt b _ (told (List.map _ _)) _
      have hticks := told_emit ⟨wire', clock', footer', phase'⟩
        (if footer' then [] else clock'.completed.map .tick)
      exact hticks.symm ▸ .eof
    | some kind =>
      cases kind with
      | snapshot =>
        obtain rfl := readSection_footer hrun (by decide)
        refine Walk.after_moved fun time u _ hclock hfooter => ?_
        exact Walk.enter_moved hclock hfooter (.inl ⟨rfl, rfl⟩) (.inl rfl)
      | cycle =>
        obtain rfl := readSection_footer hrun (by decide)
        refine Walk.after_moved fun time u _ hclock hfooter => ?_
        exact Walk.enter_moved hclock hfooter (.inl ⟨rfl, rfl⟩) (.inr rfl)
      | directory =>
        obtain rfl := readSection_footer hrun (by decide)
        show Advance b _ (told _) ⟨clock', true, .directory⟩
        have hticks := told_ticks ⟨wire', clock', false, phase'⟩ false clock'.completed
        exact hticks.symm ▸ .footer (.inl rfl)
      | tailer =>
        show Advance b _ (told _) ⟨clock', true, .tailer⟩
        have hticks := told_ticks ⟨wire', clock', footer', phase'⟩ footer' clock'.completed
        exact hticks.symm ▸ .footer (.inr rfl)
  | snapshot time rank =>
    dsimp only
    cases b.active[rank]? with
    | none =>
      refine Walk.after_moved fun _ v _ hclock hfooter => ?_
      show Advance b _ [.listEnd time.toNat] ⟨v.clock, v.footer, .section⟩
      rw [hclock, hfooter]
      exact .close
    | some entry =>
      refine Walk.after_moved fun value v _ hclock hfooter => ?_
      show Advance b _ [.scalar _] ⟨v.clock, v.footer, .snapshot time (rank + 1)⟩
      rw [hclock, hfooter]
      exact .scalar rfl rfl
  | cycle time rank => exact cycleStep_moved rfl
  | increment time =>
    refine Walk.after_moved fun delta v _ hclock hfooter => ?_
    dsimp only at hclock hfooter
    split
    · refine Walk.after_moved fun _ u _ hclock' hfooter' => ?_
      show Advance b _ [] ⟨u.clock, u.footer, .section⟩
      rw [hclock', hfooter', hclock, hfooter]
      exact .leave
    split
    · exact .error _
    split
    · exact .error _
    · exact Walk.enter_moved hclock hfooter (.inr ⟨time, rfl⟩) (.inr rfl)
  | directory =>
    refine Walk.after_moved fun _ v _ hclock hfooter => ?_
    show Advance b _ [] ⟨v.clock, v.footer, .section⟩
    rw [hclock, hfooter]
    exact .entries
  | tailer =>
    refine Walk.after_moved fun _ v _ hclock hfooter => ?_
    show Halt b _ [] (.ok v.clock.span)
    rw [hclock]
    exact .tailed

/-- Moves one after the other. -/
inductive Advances (b : Body) : Pace → List Event → Pace → Prop
  | refl (p : Pace) : Advances b p [] p
  | head {p q r : Pace} {events later : List Event} : Advance b p events q →
      Advances b q later r → Advances b p (events ++ later) r

/-- Steps of the walk are advances of its pace, with the events they tell. -/
theorem steps_advances {v : Walk} {out : List Emission} (h : Steps (walkStep b false) w out v) :
    Advances b w.pace (told out) v.pace := by
  induction h with
  | refl => exact .refl _
  | @head s s' t emitted out hs _ ih =>
    have hmoved := walkStep_moved b s
    rw [hs] at hmoved
    rw [told, List.map_append]
    exact .head hmoved ih

theorem Walk.Same.pace {v : Walk} (h : w.Same v) : w.pace = v.pace := by
  rw [Walk.pace, Walk.pace, h.2.1, h.2.2.1, h.2.2.2]

/-- A step of the walk that goes on is one move, or several at one time. -/
theorem walkStep_advances {out : List Emission} {v : Walk}
    (h : walkStep b true w = (out, .next v)) :
    Advance b w.pace (told out) v.pace ∨
      Advances b w.pace (told out) v.pace ∧ v.clock = w.clock := by
  rcases walkStep_cases b w with hagree | ⟨out', v', u, hstep, hsteps, hu, hclock, -⟩
  · have hmoved := walkStep_moved b w
    rw [h] at hagree
    rcases hsingle : walkStep b false w with ⟨out', o⟩
    rw [hsingle] at hagree hmoved
    cases hagree with
    | next hsame =>
      rw [hsame.pace]
      exact .inl hmoved
  · rw [h] at hstep
    cases hstep
    rw [← hu.pace]
    exact .inr ⟨steps_advances hsteps, hclock⟩

/-- A step of the walk that stops is an end. -/
theorem walkStep_halt {out : List Emission} {r : Except Error (Option TimeSpan)} {wire : Wire}
    (h : walkStep b true w = (out, .stop (r, wire))) : Halt b w.pace (told out) r := by
  rcases walkStep_cases b w with hagree | ⟨out', v', u, hstep, -⟩
  · have hmoved := walkStep_moved b w
    rw [h] at hagree
    rcases hsingle : walkStep b false w with ⟨out', o⟩
    rw [hsingle] at hagree hmoved
    cases hagree with
    | stop hsame => exact hmoved
  · rw [h] at hstep
    cases hstep

end

/-! ## Entering a time -/

/-- A time is entered when it is not past the end. It completes an earlier time. -/
theorem Clock.enter_entered {clock clock' : Clock} {time : Int} {stop : Nat} {ticks : List Nat}
    (h : clock.enter time stop = .entered ticks clock') :
    0 ≤ time ∧ time.toNat ≤ stop ∧ clock' = ⟨some time, some (clock.first.getD time)⟩ ∧
      (clock.current = none ∧ ticks = [] ∨ clock.current = some time ∧ ticks = [] ∨
        ∃ previous, clock.current = some previous ∧ previous < time ∧
          ticks = [previous.toNat]) := by
  obtain ⟨current, first⟩ := clock
  unfold Clock.enter at h
  split at h
  · cases h
  next hvalid =>
  dsimp only at h
  split at h
  · cases h
  next hstop =>
  cases h
  rw [not_or] at hvalid
  refine ⟨by omega, by omega, rfl, ?_⟩
  cases current with
  | none => exact .inl ⟨rfl, rfl⟩
  | some previous =>
    have hle : ¬ time < previous := by simpa using hvalid.2
    by_cases hlt : previous < time
    · refine .inr (.inr ⟨previous, rfl, hlt, ?_⟩)
      rw [if_pos (by simpa using hlt)]
      rfl
    · obtain rfl : previous = time := by omega
      refine .inr (.inl ⟨rfl, ?_⟩)
      rw [if_neg (by simp)]

/-- A time past the end ends the walk. It completes an earlier time. -/
theorem Clock.enter_ended {clock : Clock} {time : Int} {stop : Nat} {ticks : List Nat}
    (h : clock.enter time stop = .ended ticks) :
    0 ≤ time ∧ stop < time.toNat ∧
      (clock.current = none ∧ ticks = [] ∨ clock.current = some time ∨
        ticks = clock.completed) := by
  obtain ⟨current, first⟩ := clock
  unfold Clock.enter at h
  split at h
  · cases h
  next hvalid =>
  dsimp only at h
  split at h
  swap
  · cases h
  next hstop =>
  cases h
  rw [not_or] at hvalid
  refine ⟨by omega, hstop, ?_⟩
  cases current with
  | none => exact .inl ⟨rfl, rfl⟩
  | some previous =>
    have hle : ¬ time < previous := by simpa using hvalid.2
    by_cases hlt : previous < time
    · refine .inr (.inr ?_)
      rw [if_pos (by simpa using hlt)]
    · obtain rfl : previous = time := by omega
      exact .inr (.inl rfl)

/-! ## What a run tells -/

/-- A time that the walk entered, with its finished lists. -/
structure Moment where
  time : Nat
  lists : List (List ScalarEvent)

/-- The events of a finished list. -/
def listEvents (time : Nat) (l : List ScalarEvent) : List Event := l.map .scalar ++ [.listEnd time]

/-- The events of the finished lists of a time. -/
def Moment.events (m : Moment) : List Event := m.lists.flatMap (listEvents m.time)

/-- The scalars of one list belong to its time, with increasing ranks. -/
def InList (time : Nat) (l : List ScalarEvent) : Prop :=
  (∀ s ∈ l, s.time = time) ∧ l.Pairwise fun s s' => s.rank < s'.rank

/-- The lists of a time inside the end. -/
def Moment.Sound (stop : Nat) (m : Moment) : Prop :=
  m.time ≤ stop ∧ ∀ l ∈ m.lists, InList m.time l

/-- The time that is not complete yet, with the scalars of the list that is being read. -/
abbrev Opened := Option (Moment × List ScalarEvent)

/-- All times of a run. -/
def moments (complete : List Moment) (opened : Opened) : List Moment :=
  complete ++ (opened.map Prod.fst).toList

/-- The entered times of a run. -/
def times (complete : List Moment) (opened : Opened) : List Nat :=
  (moments complete opened).map Moment.time

/-- The events of a time that is complete. -/
def Moment.closed (m : Moment) : List Event := m.events ++ [.tick m.time]

/-- The events of a time that is not complete. -/
def Opened.events (opened : Opened) : List Event :=
  match opened with
  | none => []
  | some (m, l) => m.events ++ l.map .scalar

/-- Where the walk stands in the time that is not complete. -/
def Standing (p : Pace) (opened : Opened) : Prop :=
  match p.phase with
  | .section => ∀ m l, opened = some (m, l) → l = []
  | .snapshot time rank | .cycle time rank =>
    p.footer = false ∧ ∃ m l, opened = some (m, l) ∧ time = m.time ∧ ∀ s ∈ l, s.rank < rank
  | .increment time => p.footer = false ∧ ∃ m, opened = some (m, []) ∧ time = m.time
  | .directory | .tailer => p.footer = true

/-- The events up to a place: the complete times, each closed by its tick, and the time that is not
complete. -/
structure Told (b : Body) (p : Pace) (events : List Event) (complete : List Moment)
    (opened : Opened) : Prop where
  events : events = complete.flatMap Moment.closed ++ Opened.events opened
  increasing : (times complete opened).Pairwise (· < ·)
  sound : ∀ m ∈ moments complete opened, m.Sound b.stop
  scalars : ∀ m l, opened = some (m, l) → InList m.time l
  current : p.clock.current = (times complete opened).getLast?.map Int.ofNat
  first : p.clock.first = (times complete opened).head?.map Int.ofNat
  closed : p.footer = true → opened = none
  unclosed : p.footer = false → opened = none → complete = []
  standing : Standing p opened

@[simp] theorem moments_none (complete : List Moment) : moments complete none = complete :=
  List.append_nil _

/-- The lists of a time do not change when it is. -/
theorem times_lists (complete : List Moment) (m : Moment) (lists : List (List ScalarEvent))
    (l l' : List ScalarEvent) :
    times complete (some (⟨m.time, lists⟩, l)) = times complete (some (m, l')) := by
  rw [times, times, moments, moments, List.map_append, List.map_append]
  rfl

theorem times_closed (complete : List Moment) (opened : Opened) :
    times (moments complete opened) none = times complete opened := by
  rw [times, moments_none, times]

@[simp] theorem moments_some (complete : List Moment) (m : Moment) (l : List ScalarEvent) :
    moments complete (some (m, l)) = complete ++ [m] := rfl

section
variable {b : Body} {clock : Clock} {footer : Bool} {phase : Phase} {p q : Pace}
  {events : List Event} {complete : List Moment} {opened : Opened}

/-- Nothing is told at the start. -/
theorem Told.start (b : Body) (wire : Wire) : Told b (Walk.start wire).pace [] [] none where
  events := rfl
  increasing := .nil
  sound := nofun
  scalars := nofun
  current := rfl
  first := rfl
  closed := fun _ => rfl
  unclosed := fun _ _ => rfl
  standing := nofun

/-- The current time is the last one entered. -/
theorem Told.current_eq {m : Moment} {l : List ScalarEvent}
    (h : Told b p events complete (some (m, l))) : p.clock.current = some (m.time : Int) := by
  rw [h.current, times, moments_some, List.map_append, List.map_singleton, List.getLast?_concat]
  rfl

/-- A tick closes the time that is not complete. -/
theorem Told.close (h : Told b ⟨clock, false, phase⟩ events complete opened)
    (hquiet : ∀ m l, opened = some (m, l) → l = []) {phase' : Phase}
    (hphase : phase' = .section ∨ phase' = .directory ∨ phase' = .tailer) :
    Told b ⟨clock, true, phase'⟩ (events ++ clock.completed.map .tick) (moments complete opened)
      none := by
  have hevents : events ++ clock.completed.map .tick =
      (moments complete opened).flatMap Moment.closed := by
    cases opened with
    | none =>
      obtain rfl := h.unclosed rfl rfl
      have hcurrent : clock.current = none := h.current
      rw [h.events, Clock.completed, hcurrent]
      rfl
    | some o =>
      obtain ⟨m, l⟩ := o
      obtain rfl := hquiet m l rfl
      have hcurrent : clock.current = some (m.time : Int) := h.current_eq
      rw [h.events, moments_some, List.flatMap_append, List.flatMap_singleton, List.append_assoc,
        Clock.completed, hcurrent]
      simp [Opened.events, Moment.closed]
  have htimes := times_closed complete opened
  refine ⟨by rw [hevents, Opened.events, List.append_nil], by rw [htimes]; exact h.increasing,
    by rw [moments_none]; exact h.sound, nofun, by rw [htimes]; exact h.current,
    by rw [htimes]; exact h.first, fun _ => rfl, nofun, ?_⟩
  rcases hphase with rfl | rfl | rfl
  · exact nofun
  · rfl
  · rfl

/-- Nothing is read of a list where a time is entered. -/
theorem Told.quiet (h : Told b p events complete opened) (henters : p.Enters) :
    p.footer = false ∧ ∀ m l, opened = some (m, l) → l = [] := by
  have hstanding := h.standing
  unfold Standing at hstanding
  rcases henters with ⟨hphase, hfooter⟩ | ⟨time, hphase⟩
  · rw [hphase] at hstanding
    exact ⟨hfooter, hstanding⟩
  · rw [hphase] at hstanding
    obtain ⟨hfooter, m, rfl, -⟩ := hstanding
    refine ⟨hfooter, fun m' l hopened => ?_⟩
    cases hopened
    rfl

/-- Some walks tell of more times than others. -/
def Further (complete : List Moment) (opened : Opened) (current : Option Int)
    (complete' : List Moment) (opened' : Opened) : Prop :=
  times complete opened <+: times complete' opened' ∧
    ∀ t ∈ times complete' opened', t ∈ times complete opened ∨ current = some (t : Int)

/-- Walks that tell of the same times. -/
theorem Further.of_eq {complete' : List Moment} {opened' : Opened} (current : Option Int)
    (h : times complete' opened' = times complete opened) :
    Further complete opened current complete' opened' :=
  ⟨h ▸ List.prefix_rfl, fun _ ht => .inl (h ▸ ht)⟩

/-- Before a footer, the current time is the one that is not complete. -/
theorem Told.opened_of_current (h : Told b p events complete opened) (hfooter : p.footer = false)
    {current : Int} (hcurrent : p.clock.current = some current) :
    ∃ m l, opened = some (m, l) ∧ current = m.time := by
  cases opened with
  | none =>
    obtain rfl := h.unclosed hfooter rfl
    rw [h.current] at hcurrent
    cases hcurrent
  | some o =>
    obtain ⟨m, l⟩ := o
    rw [h.current_eq] at hcurrent
    cases hcurrent
    exact ⟨m, l, rfl, rfl⟩

/-- Without a current time nothing was entered. -/
theorem Told.empty (h : Told b p events complete opened) (hcurrent : p.clock.current = none) :
    complete = [] ∧ opened = none := by
  have htimes := h.current.symm.trans hcurrent
  rw [Option.map_eq_none_iff, List.getLast?_eq_none_iff, times, List.map_eq_nil_iff] at htimes
  cases opened with
  | none => exact ⟨by rw [← htimes, moments_none], rfl⟩
  | some o =>
    obtain ⟨m, l⟩ := o
    rw [moments_some] at htimes
    simp at htimes

/-- Entering a time completes an earlier one. -/
theorem Told.enter (h : Told b p events complete opened) (henters : p.Enters) {time : Int}
    {ticks : List Nat} {clock' : Clock}
    (henter : p.clock.enter time b.stop = .entered ticks clock') {phase' : Phase}
    (hphase : phase' = .snapshot time 0 ∨ phase' = .cycle time 0) :
    ∃ complete' opened', Told b ⟨clock', p.footer, phase'⟩ (events ++ ticks.map .tick) complete'
      opened' ∧ Further complete opened clock'.current complete' opened' := by
  obtain ⟨hfooter, hquiet⟩ := h.quiet henters
  obtain ⟨hpos, hstop, rfl, hcases⟩ := Clock.enter_entered henter
  obtain ⟨t, rfl⟩ := Int.eq_ofNat_of_zero_le hpos
  have hstanding : ∀ m : Moment, m.time = t →
      Standing ⟨⟨some t, some (p.clock.first.getD t)⟩, p.footer, phase'⟩ (some (m, [])) := by
    rintro m rfl
    rcases hphase with rfl | rfl <;> exact ⟨hfooter, m, [], rfl, rfl, nofun⟩
  rcases hcases with ⟨hnone, rfl⟩ | ⟨hsame, rfl⟩ | ⟨previous, hprevious, hlt, rfl⟩
  · -- The first time of the body.
    obtain ⟨rfl, rfl⟩ := h.empty hnone
    have hfirst : p.clock.first = none := h.first
    refine ⟨[], some (⟨t, []⟩, []), ⟨?_, List.pairwise_singleton _ _, ?_, ?_, rfl, ?_, ?_, nofun,
      hstanding _ rfl⟩, List.nil_prefix, fun t' ht' => .inr ?_⟩
    · rw [h.events]; rfl
    · intro m hm
      obtain rfl := List.mem_singleton.1 hm
      exact ⟨hstop, nofun⟩
    · rintro m l ⟨⟩
      exact ⟨nofun, .nil⟩
    · rw [hfirst]; rfl
    · intro htrue
      rw [hfooter] at htrue
      cases htrue
    · obtain rfl := List.mem_singleton.1 ht'
      rfl
  · -- The current time again.
    obtain ⟨m, l, rfl, heq⟩ := h.opened_of_current hfooter hsame
    obtain rfl := hquiet m l rfl
    have htime : m.time = t := by
      have : (t : Int) = m.time := heq
      omega
    refine ⟨complete, some (m, []), ⟨?_, h.increasing, h.sound, h.scalars, ?_, ?_, h.closed,
      h.unclosed, hstanding m htime⟩, .of_eq _ rfl⟩
    · rw [h.events]; simp
    · rw [← h.current, hsame]
    · have hfirst := h.first
      show some (p.clock.first.getD t) = _
      rw [hfirst]
      cases complete <;> rfl
  · -- A later time.
    obtain ⟨m, l, rfl, heq⟩ := h.opened_of_current hfooter hprevious
    obtain rfl := hquiet m l rfl
    have hlater : m.time < t := by
      have : previous = (m.time : Int) := heq
      omega
    have htimes : times (complete ++ [m]) (some (⟨t, []⟩, [])) =
        times complete (some (m, [])) ++ [t] := by
      rw [times, moments_some, List.map_append, times, moments_some]
      rfl
    have hpre : ∀ t' ∈ times complete (some (m, [])), t' < t := by
      have hsorted := h.increasing
      rw [times, moments_some, List.map_append, List.map_singleton] at hsorted ⊢
      intro t' ht'
      rcases List.mem_append.1 ht' with ht' | ht'
      · have := (List.pairwise_append.1 hsorted).2.2 t' ht' m.time (by simp)
        omega
      · obtain rfl := List.mem_singleton.1 ht'
        exact hlater
    refine ⟨complete ++ [m], some (⟨t, []⟩, []), ⟨?_, ?_, ?_, ?_, ?_, ?_, ?_, nofun,
      hstanding _ rfl⟩, by rw [htimes]; exact List.prefix_append _ _, fun t' ht' => ?_⟩
    · rw [h.events, heq]
      simp [Opened.events, Moment.closed, Moment.events]
    · rw [htimes, List.pairwise_append]
      refine ⟨h.increasing, List.pairwise_singleton _ _, fun t' ht' u hu => ?_⟩
      obtain rfl := List.mem_singleton.1 hu
      exact hpre t' ht'
    · intro m' hm'
      rw [moments_some] at hm'
      rcases List.mem_append.1 hm' with hm' | hm'
      · exact h.sound m' hm'
      · obtain rfl := List.mem_singleton.1 hm'
        exact ⟨hstop, nofun⟩
    · rintro m' l ⟨⟩
      exact ⟨nofun, .nil⟩
    · rw [htimes, List.getLast?_concat]
      rfl
    · have hfirst := h.first
      rw [htimes]
      show some (p.clock.first.getD t) = _
      rw [hfirst, times, moments_some]
      cases complete <;> rfl
    · intro htrue
      rw [hfooter] at htrue
      cases htrue
    · rw [htimes] at ht'
      rcases List.mem_append.1 ht' with ht' | ht'
      · exact .inl ht'
      · obtain rfl := List.mem_singleton.1 ht'
        exact .inr rfl

/-- A scalar of the list that is being read. -/
theorem Told.scalar {m : Moment} {l : List ScalarEvent}
    (h : Told b ⟨clock, footer, phase⟩ events complete (some (m, l))) {s : ScalarEvent}
    (htime : s.time = m.time) (hrank : ∀ s' ∈ l, s'.rank < s.rank) {phase' : Phase}
    (hstanding : Standing ⟨clock, footer, phase'⟩ (some (m, l ++ [s]))) :
    Told b ⟨clock, footer, phase'⟩ (events ++ [.scalar s]) complete (some (m, l ++ [s])) := by
  obtain ⟨htimes, hsorted⟩ := h.scalars m l rfl
  refine ⟨?_, h.increasing, h.sound, ?_, h.current, h.first, fun hfooter => ?_, nofun, hstanding⟩
  · rw [h.events]
    simp [Opened.events]
  · rintro m' l' ⟨⟩
    refine ⟨fun s' hs' => ?_, List.pairwise_append.2 ⟨hsorted, List.pairwise_singleton _ _, ?_⟩⟩
    · rcases List.mem_append.1 hs' with hs' | hs'
      · exact htimes s' hs'
      · obtain rfl := List.mem_singleton.1 hs'
        exact htime
    · intro s' hs' u hu
      obtain rfl := List.mem_singleton.1 hu
      exact hrank s' hs'
  · have := h.closed hfooter
    cases this

/-- The end of the list that is being read. -/
theorem Told.listEnd {m : Moment} {l : List ScalarEvent}
    (h : Told b ⟨clock, footer, phase⟩ events complete (some (m, l))) {phase' : Phase}
    (hstanding : Standing ⟨clock, footer, phase'⟩ (some (⟨m.time, m.lists ++ [l]⟩, []))) :
    Told b ⟨clock, footer, phase'⟩ (events ++ [.listEnd m.time]) complete
      (some (⟨m.time, m.lists ++ [l]⟩, [])) := by
  have htimes := times_lists complete m (m.lists ++ [l]) [] l
  refine ⟨?_, by rw [htimes]; exact h.increasing, fun m' hm' => ?_, ?_,
    by rw [htimes]; exact h.current, by rw [htimes]; exact h.first, fun hfooter => ?_, nofun,
    hstanding⟩
  · rw [h.events]
    simp [Opened.events, Moment.events, listEvents]
  · rw [moments_some] at hm'
    rcases List.mem_append.1 hm' with hm' | hm'
    · exact h.sound m' (List.mem_append_left _ hm')
    · obtain rfl := List.mem_singleton.1 hm'
      obtain ⟨hstop, hlists⟩ := h.sound m (List.mem_append_right _ (List.mem_singleton_self m))
      refine ⟨hstop, fun l' hl' => ?_⟩
      rcases List.mem_append.1 hl' with hl' | hl'
      · exact hlists l' hl'
      · obtain rfl := List.mem_singleton.1 hl'
        exact h.scalars m l' rfl
  · rintro m' l' ⟨⟩
    exact ⟨nofun, .nil⟩
  · have := h.closed hfooter
    cases this

/-- Every move keeps what is told. -/
theorem Told.advance {more : List Event} (h : Told b p events complete opened)
    (hadvance : Advance b p more q) :
    ∃ complete' opened', Told b q (events ++ more) complete' opened' ∧
      Further complete opened q.clock.current complete' opened' := by
  have hstanding := h.standing
  cases hadvance with
  | enter henters henter hphase => exact h.enter henters henter hphase
  | scalar htime hrank =>
    obtain ⟨hfooter, m, l, rfl, rfl, hranks⟩ := hstanding
    have htime' : _ = m.time := htime
    refine ⟨complete, some (m, _), h.scalar htime' (by rw [hrank]; exact hranks)
      ⟨hfooter, m, _, rfl, rfl, fun s' hs' => ?_⟩, .of_eq _ rfl⟩
    rcases List.mem_append.1 hs' with hs' | hs'
    · have := hranks s' hs'
      omega
    · obtain rfl := List.mem_singleton.1 hs'
      omega
  | record htime hlt hrank =>
    obtain ⟨hfooter, m, l, rfl, rfl, hranks⟩ := hstanding
    have htime' : _ = m.time := htime
    refine ⟨complete, some (m, _), h.scalar htime' (fun s' hs' => ?_)
      ⟨hfooter, m, _, rfl, rfl, fun s' hs' => ?_⟩, .of_eq _ rfl⟩
    · have := hranks s' hs'
      omega
    · rcases List.mem_append.1 hs' with hs' | hs'
      · have := hranks s' hs'
        omega
      · obtain rfl := List.mem_singleton.1 hs'
        omega
  | close =>
    obtain ⟨hfooter, m, l, rfl, rfl, -⟩ := hstanding
    refine ⟨complete, some (⟨m.time, m.lists ++ [l]⟩, []), h.listEnd ?_,
      .of_eq _ (times_lists ..)⟩
    rintro m' l' ⟨⟩
    rfl
  | pause =>
    obtain ⟨hfooter, m, l, rfl, rfl, -⟩ := hstanding
    exact ⟨complete, some (⟨m.time, m.lists ++ [l]⟩, []), h.listEnd ⟨hfooter, _, rfl, rfl⟩,
      .of_eq _ (times_lists ..)⟩
  | leave =>
    obtain ⟨hfooter, m, rfl, rfl⟩ := hstanding
    refine ⟨complete, some (m, []), ⟨?_, h.increasing, h.sound, h.scalars, h.current, h.first,
      h.closed, h.unclosed, ?_⟩, .of_eq _ rfl⟩
    · rw [List.append_nil]; exact h.events
    · rintro m' l' ⟨⟩
      rfl
  | @footer clock footer phase hphase =>
    cases footer with
    | false => exact ⟨_, none, h.close hstanding (.inr hphase), .of_eq _ (times_closed ..)⟩
    | true =>
      obtain rfl := h.closed rfl
      refine ⟨complete, none, ⟨?_, h.increasing, h.sound, h.scalars, h.current, h.first,
        fun _ => rfl, nofun, ?_⟩, .of_eq _ rfl⟩
      · exact (List.append_nil _).trans h.events
      · rcases hphase with rfl | rfl <;> rfl
  | entries =>
    obtain rfl : _ = true := hstanding
    obtain rfl := h.closed rfl
    refine ⟨complete, none, ⟨?_, h.increasing, h.sound, h.scalars, h.current, h.first,
      fun _ => rfl, nofun, nofun⟩, .of_eq _ rfl⟩
    rw [List.append_nil]
    exact h.events

/-- Moves at one time tell of no other time. -/
theorem Told.advances {more : List Event} (h : Told b p events complete opened)
    (hadvances : Advances b p more q) :
    ∃ complete' opened', Told b q (events ++ more) complete' opened' ∧
      times complete opened <+: times complete' opened' := by
  induction hadvances generalizing events complete opened with
  | refl => exact ⟨complete, opened, by rwa [List.append_nil], List.prefix_rfl⟩
  | head hadvance _ ih =>
    obtain ⟨complete₁, opened₁, h₁, hfurther, -⟩ := h.advance hadvance
    obtain ⟨complete₂, opened₂, h₂, hpre⟩ := ih h₁
    exact ⟨complete₂, opened₂, by rwa [← List.append_assoc], hfurther.trans hpre⟩

/-- Increasing lists with one last member, of which one starts the other, are equal. -/
theorem prefix_eq_of_last {xs ys : List Nat} (hpre : xs <+: ys) (hsorted : ys.Pairwise (· < ·))
    (hlast : xs.getLast? = ys.getLast?) : ys = xs := by
  obtain ⟨more, rfl⟩ := hpre
  rcases List.eq_nil_or_concat more with rfl | ⟨pre, y, rfl⟩
  · rw [List.append_nil]
  · rw [List.concat_eq_append, ← List.append_assoc, List.getLast?_concat] at hlast
    have hmem := List.mem_of_getLast? hlast
    have := (List.pairwise_append.1 hsorted).2.2 y hmem y (by simp)
    omega

/-- Every step of the walk keeps what is told. -/
theorem Told.step {w v : Walk} {out : List Emission} (h : Told b w.pace events complete opened)
    (hstep : walkStep b true w = (out, .next v)) :
    ∃ complete' opened', Told b v.pace (events ++ told out) complete' opened' ∧
      Further complete opened v.clock.current complete' opened' := by
  rcases walkStep_advances hstep with hadvance | ⟨hadvances, hclock⟩
  · exact h.advance hadvance
  · obtain ⟨complete', opened', h', hpre⟩ := h.advances hadvances
    refine ⟨complete', opened', h', .of_eq _ (prefix_eq_of_last hpre h'.increasing ?_)⟩
    have hcurrent : v.pace.clock.current = w.pace.clock.current := by
      show v.clock.current = w.clock.current
      rw [hclock]
    rw [h.current, h'.current] at hcurrent
    exact (Option.map_injective (fun _ _ => Int.ofNat.inj) hcurrent).symm

/-! ## The end of a run -/

/-- The span of complete times. -/
def spanOf (complete : List Moment) : Option TimeSpan :=
  match complete.head?, complete.getLast? with
  | some first, some last => some ⟨first.time, last.time⟩
  | _, _ => none

/-- The span of the clock goes from the first to the last time. -/
theorem Told.span (h : Told b p events complete none) : p.clock.span = spanOf complete := by
  have hfirst := h.first
  have hcurrent := h.current
  rw [times, moments_none, List.head?_map, Option.map_map] at hfirst
  rw [times, moments_none, List.getLast?_map, Option.map_map] at hcurrent
  unfold Clock.span spanOf
  rw [hfirst, hcurrent]
  cases complete.head? with
  | none => rfl
  | some m => cases complete.getLast? <;> rfl

/-- An end completes the last time, unless it is an error. -/
theorem Told.halt {more : List Event} {r : Except Error (Option TimeSpan)}
    (h : Told b p events complete opened) (hhalt : Halt b p more r) :
    ∃ p' complete' opened', Told b p' (events ++ more) complete' opened' ∧
      times complete' opened' = times complete opened ∧
      (p.footer = true → more = [] ∧ opened' = none) ∧ (∀ e, r = .error e → p' = p) ∧
      ∀ span, r = .ok span → opened' = none ∧ span = p'.clock.span := by
  have hstanding := h.standing
  cases hhalt with
  | error e =>
    exact ⟨p, complete, opened, by rwa [List.append_nil], rfl,
      fun hfooter => ⟨rfl, h.closed hfooter⟩, fun _ _ => rfl, nofun⟩
  | past henters henter =>
    obtain ⟨hfooter, hquiet⟩ := h.quiet henters
    have hnot : ¬ p.footer = true := by rw [hfooter]; exact Bool.false_ne_true
    obtain ⟨hpos, hstop, ⟨hnone, rfl⟩ | hsame | rfl⟩ := Clock.enter_ended henter
    · obtain ⟨rfl, rfl⟩ := h.empty hnone
      exact ⟨p, [], none, by rwa [List.map_nil, List.append_nil], rfl, fun hf => absurd hf hnot,
        nofun, fun span hspan => by cases hspan; exact ⟨rfl, rfl⟩⟩
    · obtain ⟨m, l, rfl, rfl⟩ := h.opened_of_current hfooter hsame
      have := (h.sound m (List.mem_append_right _ (List.mem_singleton_self m))).1
      rw [Int.toNat_natCast] at hstop
      omega
    · obtain ⟨clock, footer, phase⟩ := p
      dsimp only at hfooter
      subst hfooter
      exact ⟨_, _, none, h.close hquiet (.inl rfl), times_closed ..,
        fun hf => absurd hf hnot, nofun, fun span hspan => by cases hspan; exact ⟨rfl, rfl⟩⟩
  | @eof clock footer =>
    cases footer with
    | false =>
      exact ⟨_, _, none, h.close hstanding (.inl rfl), times_closed .., nofun,
        nofun, fun span hspan => by cases hspan; exact ⟨rfl, rfl⟩⟩
    | true =>
      obtain rfl := h.closed rfl
      exact ⟨_, complete, none, by rw [if_pos rfl, List.append_nil]; exact h, rfl,
        fun _ => ⟨rfl, rfl⟩, nofun, fun span hspan => by cases hspan; exact ⟨rfl, rfl⟩⟩
  | tailed =>
    obtain rfl : _ = true := hstanding
    obtain rfl := h.closed rfl
    exact ⟨_, complete, none, by rwa [List.append_nil], rfl, fun _ => ⟨rfl, rfl⟩, nofun,
      fun span hspan => by cases hspan; exact ⟨rfl, rfl⟩⟩

/-- After a footer nothing is handed over. -/
theorem Told.silent {more : List Event} (h : Told b p events complete opened)
    (hfooter : p.footer = true) (hadvance : Advance b p more q) : more = [] ∧ q.footer = true := by
  have hstanding := h.standing
  have hnot : ¬ p.footer = false := by rw [hfooter]; exact fun h => Bool.noConfusion h
  cases hadvance with
  | enter henters => exact absurd (h.quiet henters).1 hnot
  | scalar => exact absurd hstanding.1 hnot
  | record => exact absurd hstanding.1 hnot
  | close => exact absurd hstanding.1 hnot
  | pause => exact absurd hstanding.1 hnot
  | leave => exact absurd hstanding.1 hnot
  | footer => obtain rfl : _ = true := hfooter; exact ⟨rfl, rfl⟩
  | entries => exact ⟨rfl, hfooter⟩

/-- Behind a directory nothing more is told. -/
theorem Told.silents {more : List Event} (h : Told b p events complete opened)
    (hfooter : p.footer = true) (hadvances : Advances b p more q) :
    more = [] ∧ q.footer = true := by
  induction hadvances generalizing events complete opened with
  | refl => exact ⟨rfl, hfooter⟩
  | head hadvance _ ih =>
    obtain ⟨rfl, hfooter'⟩ := h.silent hfooter hadvance
    obtain ⟨complete', opened', h', -⟩ := h.advance hadvance
    obtain ⟨rfl, hfooter''⟩ := ih h' hfooter'
    exact ⟨rfl, hfooter''⟩

/-- Steps after a footer hand over nothing. -/
theorem Told.step_silent {w v : Walk} {out : List Emission}
    (h : Told b w.pace events complete opened) (hfooter : w.footer = true)
    (hstep : walkStep b true w = (out, .next v)) : told out = [] ∧ v.footer = true := by
  rcases walkStep_advances hstep with hadvance | ⟨hadvances, -⟩
  · exact h.silent hfooter hadvance
  · exact h.silents hfooter hadvances

/-- What is told of a state that the walk reaches. -/
theorem Told.reached {w v : Walk} {out : List Emission} (h : Told b w.pace events complete opened)
    (hsteps : Steps (walkStep b true) w out v) :
    ∃ complete' opened', Told b v.pace (events ++ told out) complete' opened' := by
  induction hsteps generalizing events complete opened with
  | refl => exact ⟨complete, opened, by rwa [told, List.map_nil, List.append_nil]⟩
  | head hstep _ ih =>
    obtain ⟨complete₁, opened₁, h₁, -⟩ := h.step hstep
    obtain ⟨complete₂, opened₂, h₂⟩ := ih h₁
    exact ⟨complete₂, opened₂, by rwa [told, List.map_append, ← List.append_assoc]⟩

/-- The current time of a state is one of the times told. -/
theorem Told.current_mem (h : Told b p events complete opened) {t : Nat}
    (ht : p.clock.current = some (t : Int)) : t ∈ times complete opened := by
  rw [h.current, Option.map_eq_some_iff] at ht
  obtain ⟨t', hlast, heq⟩ := ht
  obtain rfl : t' = t := Int.ofNat.inj heq
  exact List.mem_of_getLast? hlast

/-- What is told of a run: every state reached is in a time of the run, a footer ends the events,
and a run without an error completes every time. -/
theorem Told.run {w : Walk} {out : List Emission} {r : Walked}
    (h : Told b w.pace events complete opened) (hrun : Runs (walkStep b true) w out r) :
    ∃ p complete' opened', Told b p (events ++ told out) complete' opened' ∧
      times complete opened <+: times complete' opened' ∧
      (∀ t ∈ times complete' opened', t ∈ times complete opened ∨
        ∃ pre v, Steps (walkStep b true) w pre v ∧ v.clock.current = some (t : Int)) ∧
      (∀ pre v, Steps (walkStep b true) w pre v →
        (∀ t : Nat, v.clock.current = some (t : Int) → t ∈ times complete' opened') ∧
        (v.footer = true → told out = told pre ∧ opened' = none)) ∧
      (∀ e, r.1 = .error e → ∃ pre v, Steps (walkStep b true) w pre v ∧ p = v.pace) ∧
      ∀ span, r.1 = .ok span → opened' = none ∧ span = p.clock.span := by
  induction hrun generalizing events complete opened with
  | @stop w out r hstop =>
    obtain ⟨r, wire⟩ := r
    obtain ⟨p, complete', opened', h', htimes, hsilent, herror, hok⟩ := h.halt (walkStep_halt hstop)
    refine ⟨p, complete', opened', h', htimes ▸ List.prefix_rfl, fun t ht => .inl (htimes ▸ ht),
      fun pre v hsteps => ?_, fun e he => ⟨[], w, .refl w, herror e he⟩, hok⟩
    cases hsteps with
    | refl => exact ⟨fun t ht => htimes ▸ h.current_mem ht, hsilent⟩
    | head hnext _ => rw [hstop] at hnext; cases hnext
  | @next w v out later r hstep _ ih =>
    obtain ⟨complete₁, opened₁, h₁, hpre₁, hnew₁⟩ := h.step hstep
    obtain ⟨p, complete₂, opened₂, h₂, hpre₂, hnew₂, hreached, herror, hok⟩ := ih h₁
    have htold : ∀ more, told (out ++ more) = told out ++ told more := fun more => List.map_append
    refine ⟨p, complete₂, opened₂, by rwa [htold, ← List.append_assoc], hpre₁.trans hpre₂,
      fun t ht => ?_, fun pre u hsteps => ?_, fun e he => ?_, hok⟩
    · rcases hnew₂ t ht with ht | ⟨pre, u, hsteps, hcurrent⟩
      · rcases hnew₁ t ht with ht | hcurrent
        · exact .inl ht
        · exact .inr ⟨_, v, .single hstep, hcurrent⟩
      · exact .inr ⟨_, u, .head hstep hsteps, hcurrent⟩
    · cases hsteps with
      | refl =>
        refine ⟨fun t ht => (hpre₁.trans hpre₂).subset (h.current_mem ht), fun hfooter => ?_⟩
        obtain ⟨hout, hfooter'⟩ := h.step_silent hfooter hstep
        obtain ⟨hlater, hopened⟩ := (hreached [] v (.refl v)).2 hfooter'
        exact ⟨by rw [htold, hout, hlater]; rfl, hopened⟩
      | head hnext hrest =>
        rw [hstep] at hnext
        cases hnext
        obtain ⟨hcurrent, hfooter⟩ := hreached _ u hrest
        refine ⟨hcurrent, fun hu => ?_⟩
        obtain ⟨hlater, hopened⟩ := hfooter hu
        exact ⟨by rw [htold, htold, hlater], hopened⟩
    · obtain ⟨pre, u, hsteps, hp⟩ := herror e he
      exact ⟨_, u, .head hstep hsteps, hp⟩

end

/-! ## The protocol -/

/-- The time of an event. -/
def Event.time : Event → Nat
  | .scalar s => s.time
  | .listEnd time => time
  | .tick time => time

/-- The times of the ticks among some events. -/
def ticksOf (events : List Event) : List Nat :=
  events.filterMap fun
    | .tick time => some time
    | _ => none

/-- A state that the walk reaches after some events. -/
def Reached (b : Body) (wire : Wire) (events : List Event) (w : Walk) : Prop :=
  ∃ out, Steps (walkStep b true) (Walk.start wire) out w ∧ told out = events

/-- A time that the walk enters. -/
def Entered (b : Body) (wire : Wire) (t : Nat) : Prop :=
  ∃ events w, Reached b wire events w ∧ w.clock.current = some (t : Int)

/-- The protocol of the events of a walk with its result. The complete times come one after the
other, each with its lists and then its one tick, and a time that is not complete comes last. -/
structure Protocol (b : Body) (wire : Wire) (events : List Event)
    (result : Except Error (Option TimeSpan)) (complete : List Moment) (opened : Opened) :
    Prop where
  told : events = complete.flatMap Moment.closed ++ Opened.events opened
  increasing : (times complete opened).Pairwise (· < ·)
  lists : ∀ m ∈ moments complete opened, m.Sound b.stop
  unended : ∀ m l, opened = some (m, l) → InList m.time l
  ticks : ticksOf events = complete.map Moment.time
  ordered : (events.map Event.time).Pairwise (· ≤ ·)
  bounded : ∀ e ∈ events, e.time ≤ b.stop
  entered : ∀ t, Entered b wire t ↔ t ∈ times complete opened
  finished : ∀ span, result = .ok span → opened = none ∧ span = spanOf complete
  unfinished : opened ≠ none →
    (∃ e, result = .error e) ∧ ∀ events w, Reached b wire events w → w.footer = false
  proved : opened = none → complete ≠ [] →
    (∃ span, result = .ok span) ∨ ∃ before w, Reached b wire before w ∧ w.footer = true
  silent : ∀ before w, Reached b wire before w → w.footer = true → events = before
  decoded : ∀ before w, Reached b wire before w → ∀ time rank,
    w.phase = .snapshot time rank ∨ w.phase = .cycle time rank → time.toNat ≤ b.stop

section
variable {b : Body} {p : Pace} {events : List Event} {complete : List Moment} {opened : Opened}

/-- Every event of a complete time belongs to it. -/
theorem Moment.Sound.time_eq {stop : Nat} {m : Moment} (h : m.Sound stop) {e : Event}
    (he : e ∈ m.closed) : e.time = m.time := by
  rcases List.mem_append.1 he with he | he
  · obtain ⟨l, hl, he⟩ := List.mem_flatMap.1 he
    rcases List.mem_append.1 he with he | he
    · obtain ⟨s, hs, rfl⟩ := List.mem_map.1 he
      exact (h.2 l hl).1 s hs
    · obtain rfl := List.mem_singleton.1 he
      rfl
  · obtain rfl := List.mem_singleton.1 he
    rfl

/-- Every event of the time that is not complete belongs to it. -/
theorem Told.opened_time {m : Moment} {l : List ScalarEvent}
    (h : Told b p events complete (some (m, l))) {e : Event}
    (he : e ∈ Opened.events (some (m, l))) : e.time = m.time := by
  rcases List.mem_append.1 he with he | he
  · exact (h.sound m (by simp)).time_eq (List.mem_append_left _ he)
  · obtain ⟨s, hs, rfl⟩ := List.mem_map.1 he
    exact (h.scalars m l rfl).1 s hs

/-- Every event belongs to a time inside the end. -/
theorem Told.moment (h : Told b p events complete opened) {e : Event} (he : e ∈ events) :
    ∃ m ∈ moments complete opened, e.time = m.time := by
  rw [h.events] at he
  rcases List.mem_append.1 he with he | he
  · obtain ⟨m, hm, he⟩ := List.mem_flatMap.1 he
    have hmem := List.mem_append_left (opened.map Prod.fst).toList hm
    exact ⟨m, hmem, (h.sound m hmem).time_eq he⟩
  · cases opened with
    | none => cases he
    | some o =>
      obtain ⟨m, l⟩ := o
      exact ⟨m, by simp, h.opened_time he⟩

/-- The lists of a time tick at no time. -/
theorem ticksOf_events (m : Moment) : ticksOf m.events = [] := by
  rw [ticksOf, List.filterMap_eq_nil_iff]
  intro e he
  obtain ⟨l, hl, he⟩ := List.mem_flatMap.1 he
  rcases List.mem_append.1 he with he | he
  · obtain ⟨s, hs, rfl⟩ := List.mem_map.1 he
    rfl
  · obtain rfl := List.mem_singleton.1 he
    rfl

/-- The ticks are those of the complete times. -/
theorem Told.ticks (h : Told b p events complete opened) :
    ticksOf events = complete.map Moment.time := by
  have hclosed : ∀ ms : List Moment, ticksOf (ms.flatMap Moment.closed) = ms.map Moment.time := by
    intro ms
    induction ms with
    | nil => rfl
    | cons m ms ih =>
      have hm : ticksOf m.closed = [m.time] := by
        have hevents := ticksOf_events m
        rw [ticksOf] at hevents
        rw [ticksOf, Moment.closed, List.filterMap_append, hevents]
        rfl
      rw [ticksOf] at hm ih
      rw [ticksOf, List.flatMap_cons, List.filterMap_append, hm, ih]
      rfl
  have hopened : ticksOf (Opened.events opened) = [] := by
    cases opened with
    | none => rfl
    | some o =>
      obtain ⟨m, l⟩ := o
      have hevents := ticksOf_events m
      rw [ticksOf] at hevents
      rw [ticksOf, Opened.events, List.filterMap_append, hevents, List.nil_append,
        List.filterMap_eq_nil_iff]
      intro e he
      obtain ⟨s, -, rfl⟩ := List.mem_map.1 he
      rfl
  have hall := hclosed complete
  rw [ticksOf] at hall hopened
  rw [ticksOf, h.events, List.filterMap_append, hall, hopened, List.append_nil]

/-- The times of the events do not decrease. -/
theorem Told.ordered (h : Told b p events complete opened) :
    (events.map Event.time).Pairwise (· ≤ ·) := by
  have hincreasing := h.increasing
  rw [times, moments, List.map_append, List.pairwise_append, List.pairwise_map] at hincreasing
  obtain ⟨hcomplete, -, hlast⟩ := hincreasing
  have hsame : ∀ (es : List Event) (t : Nat), (∀ e ∈ es, e.time = t) →
      es.Pairwise fun e e' => e.time ≤ e'.time := by
    intro es t hes
    refine List.pairwise_of_forall_mem_list fun e he e' he' => ?_
    rw [hes e he, hes e' he']
  have hsound : ∀ m ∈ complete, m.Sound b.stop := fun m hm =>
    h.sound m (List.mem_append_left _ hm)
  rw [List.pairwise_map, h.events, List.pairwise_append]
  refine ⟨List.pairwise_flatMap.2 ⟨fun m hm => hsame _ m.time fun e he => (hsound m hm).time_eq he,
    hcomplete.imp_of_mem fun hm hm' hlt e he e' he' => ?_⟩, ?_, fun e he e' he' => ?_⟩
  · rw [(hsound _ hm).time_eq he, (hsound _ hm').time_eq he']
    exact hlt.le
  · cases opened with
    | none => exact .nil
    | some o =>
      obtain ⟨m, l⟩ := o
      exact hsame _ m.time fun e he => h.opened_time he
  · obtain ⟨m, hm, he⟩ := List.mem_flatMap.1 he
    cases opened with
    | none => cases he'
    | some o =>
      obtain ⟨m', l⟩ := o
      rw [(hsound m hm).time_eq he, h.opened_time he']
      exact (hlast m.time (List.mem_map_of_mem hm) m'.time (by simp)).le

/-- The walk reads payloads at an entered time only. -/
theorem Told.decoded (h : Told b p events complete opened) {time : Int} {rank : Nat}
    (hphase : p.phase = .snapshot time rank ∨ p.phase = .cycle time rank) :
    time.toNat ≤ b.stop := by
  have hstanding := h.standing
  unfold Standing at hstanding
  rcases hphase with hphase | hphase <;> rw [hphase] at hstanding <;>
    obtain ⟨-, m, l, rfl, rfl, -⟩ := hstanding <;> exact (h.sound m (by simp)).1

end

/-- **The event protocol of the walk.** On every wire, a visitor that always continues receives the
events of some complete times and perhaps of one that is not complete, by the protocol. -/
theorem walk_protocol (b : Body) (wire : Wire) :
    ∃ events result offset complete opened,
      walk b true (fun seen e => (seen ++ [e], ControlFlow.continue (B := Empty))) [] wire =
        (events, result, offset) ∧
      Protocol b wire events (result.map Prod.snd) complete opened := by
  obtain ⟨out, r, hrun⟩ := walk_total b true (Walk.start wire)
  obtain ⟨p, complete, opened, h, -, hnew, hreached, herror, hok⟩ := (Told.start b wire).run hrun
  rw [List.nil_append] at h
  have hvisit : visit (onEvent fun seen e => (seen ++ [e], ControlFlow.continue (B := Empty))) []
      out = (told out, .continue) := by
    have hpush := visit_push (B := Empty × Nat × Option TimeSpan) ([] : List Event) (told out)
    rw [told, visit_map] at hpush
    exact hpush
  refine ⟨told out, r.1.map fun span => (.continue, span), r.2.offset, complete, opened, ?_, ?_⟩
  · rw [walk_eq hrun, hvisit]
    rfl
  have hresult : (r.1.map fun span => (ControlFlow.continue (B := Empty), span)).map Prod.snd =
      r.1 := by
    cases r.1 <;> rfl
  rw [hresult]
  refine ⟨h.events, h.increasing, h.sound, h.scalars, h.ticks, h.ordered, fun e he => ?_,
    fun t => ⟨?_, fun ht => ?_⟩, fun span hspan => ?_, fun hopened => ⟨?_, ?_⟩,
    fun hopened hcomplete => ?_, ?_, ?_⟩
  · obtain ⟨m, hm, htime⟩ := h.moment he
    rw [htime]
    exact (h.sound m hm).1
  · rintro ⟨events, w, ⟨pre, hsteps, -⟩, ht⟩
    exact (hreached pre w hsteps).1 t ht
  · rcases hnew t ht with ht | ⟨pre, w, hsteps, hcurrent⟩
    · cases ht
    · exact ⟨told pre, w, ⟨pre, hsteps, rfl⟩, hcurrent⟩
  · obtain ⟨rfl, rfl⟩ := hok span hspan
    exact ⟨rfl, h.span⟩
  · cases hr : r.1 with
    | error e => exact ⟨e, rfl⟩
    | ok span => exact absurd (hok span hr).1 hopened
  · rintro events w ⟨pre, hsteps, -⟩
    cases hfooter : w.footer with
    | false => rfl
    | true => exact absurd ((hreached pre w hsteps).2 hfooter).2 hopened
  · cases hr : r.1 with
    | ok span => exact .inl ⟨span, rfl⟩
    | error e =>
      obtain ⟨pre, w, hsteps, rfl⟩ := herror e hr
      refine .inr ⟨told pre, w, ⟨pre, hsteps, rfl⟩, ?_⟩
      cases hfooter : w.footer with
      | true => rfl
      | false => exact absurd (h.unclosed hfooter hopened) hcomplete
  · rintro before w ⟨pre, hsteps, rfl⟩ hfooter
    exact ((hreached pre w hsteps).2 hfooter).1
  · rintro before w ⟨pre, hsteps, -⟩ time rank hphase
    obtain ⟨complete', opened', h'⟩ := (Told.start b wire).reached hsteps
    exact h'.decoded hphase

end Ondas.Ghw
