import Ondas.Ghw.AnyInput
import Ondas.Ghw.Cache

/-!
# Reads of a GHW file

`Reader.read` prepares the buffers of the selected signals and goes to the start of the body. It
reads through the index, unless there is none or at least half of the active source IDs are asked
for; else, and when the index leaves the read to it, it walks the body. Either way a consumer takes
the events, and hands what it makes of them to the visitor (`visit_consumer`).

A read of a file that was opened hands some notifications to any visitor, until it breaks, and ends
in one way (`Reader.Accepted.hands`), whatever its input holds by then and whatever reads of it
fail. The notifications are made of events that are delivered, and nothing happens that must not
happen.
-/

namespace Ondas.Ghw

open Library Assembly

/-- `Wire::seek`. -/
def Wire.seek (offset : Nat) (w : Wire) : Wire := { w with offset := offset, buffered := 0 }

/-- `Reader`: what the checked parse found, the index of the body when it is kept, and the input. -/
structure Reader extends Cache.Parsed where
  index : Option Index
  wire : Wire

/-- What a read does not decide: whether sums are checked, with what message the seek to the body
fails, which reservations succeed, and the order that `sort_unstable_by_key` gives to dependencies
of one source ID. -/
structure ReadEnv where
  checked : Bool
  seek : Option String
  reserved : Nat → Bool
  sort : List Dependency → List Dependency
  sorts : Sorts sort

section
variable {σ B : Type}

/-- The closure `consume` of a read. A panic breaks as an index out of bounds. -/
def consumer (visitor : σ → Notification → σ × ControlFlow B) (st : Assembly × σ) (event : Event) :
    (Assembly × σ) × ControlFlow (Except Index.Fault B) :=
  match st.1.consume event with
  | none => (st, .break (.error .bounds))
  | some (notifications, a) =>
    match visit visitor st.2 notifications with
    | (c, .continue) => ((a, c), .continue)
    | (c, .break value) => ((a, c), .break (.ok value))

/-- What a read returns when its consumer breaks, or goes on to the end. -/
def returnedFlow : ControlFlow (Except Index.Fault B) → Except Index.Failure (ControlFlow B)
  | .continue => .ok .continue
  | .break (.ok value) => .ok (.break value)
  | .break (.error fault) => .error (.fault fault)

/-- The walk of `Reader::read`. -/
def Reader.readWalk (r : Reader) (stop : Nat) (visitor : σ → Notification → σ × ControlFlow B)
    (st : Assembly × σ) (w : Wire) : σ × Except Index.Failure (ControlFlow B) :=
  match walk ⟨r.types, r.declarations.active, stop⟩ true (consumer visitor) st w with
  | ((_, c), .ok (flow, _), _) => (c, returnedFlow flow)
  | ((_, c), .error e, _) => (c, .error (.error e))

/-- The end of `Reader::read`: the body is read through the index, or walked. A broad read has
routes for all source IDs. -/
def Reader.readBody (r : Reader) (env : ReadEnv) (stop : Nat)
    (visitor : σ → Notification → σ × ControlFlow B) (st : Assembly × σ) (w : Wire) :
    σ × Except Index.Failure (ControlFlow B) :=
  match r.index.filter fun _ => st.1.routes.isNone with
  | none => r.readWalk stop visitor st w
  | some x =>
    match x.read env.checked env.reserved r.types r.declarations.active
      (sourceIdsOf st.1.dependencies) stop (consumer visitor) st w with
    | ((_, c), .ok (some flow)) => (c, returnedFlow flow)
    | (st, .ok none) => r.readWalk stop visitor st w
    | ((_, c), .error failure) => (c, .error failure)

/-- `Reader::read`. -/
def Reader.read (r : Reader) (env : ReadEnv) (signals : List Signal) (stop : Nat)
    (visitor : σ → Notification → σ × ControlFlow B) (c : σ) :
    σ × Except Index.Failure (ControlFlow B) :=
  if signals.isEmpty then (c, .ok .continue)
  else
    match env.seek with
    | some message => (c, .error (.error (.io message)))
    | none =>
      match prepare r.types r.declarations.recipes r.declarations.active r.index.isSome env.sort
        signals (r.wire.seek r.bodyStart) with
      | (.error e, _) => (c, .error (.error e))
      | (.ok a, w) => r.readBody env stop visitor (a, c) w

/-! ## Notifications -/

/-- How a read ends that has handed everything to its visitor. -/
def endedRead (ending : Except Error Unit) :
    σ × ControlFlow B → σ × Except Index.Failure (ControlFlow B)
  | (c, .break value) => (c, .ok (.break value))
  | (c, .continue) => (c, (ending.mapError Index.Failure.error).map fun _ => .continue)

/-- A read hands some notifications to any visitor until it breaks, and ends in one way. -/
def Reader.Hands (r : Reader) (env : ReadEnv) (signals : List Signal) (stop : Nat)
    (notifications : List Notification) (ending : Except Error Unit) : Prop :=
  ∀ {σ B : Type} (visitor : σ → Notification → σ × ControlFlow B) (c : σ),
    r.read env signals stop visitor c = endedRead ending (visit visitor c notifications)

/-- The answer of a visitor as the consumer gives it. -/
def passedFlow : ControlFlow B → ControlFlow (Except Index.Fault B)
  | .continue => .continue
  | .break value => .break (.ok value)

/-- **The consumer hands on what it makes of the events**, by induction on them. -/
theorem visit_consumer (visitor : σ → Notification → σ × ControlFlow B) {events : List Event}
    {notifications : List Notification} {a a' : Assembly}
    (h : run a events = some (notifications, a')) (c : σ) :
    ∃ last, visit (consumer visitor) (a, c) events =
      ((last, (visit visitor c notifications).1),
        passedFlow (visit visitor c notifications).2) := by
  induction events generalizing a notifications c with
  | nil =>
    cases h
    exact ⟨_, rfl⟩
  | cons event events ih =>
    obtain ⟨⟨now, b⟩, hconsume, hrest⟩ := Option.bind_eq_some_iff.1 h
    obtain ⟨⟨more, d⟩, hrun, hpure⟩ := Option.bind_eq_some_iff.1 hrest
    cases hpure
    simp only [visit, consumer, hconsume, visit_append]
    rcases visit visitor c now with ⟨c', _ | value⟩
    · exact ih hrun c'
    · exact ⟨b, rfl⟩

section
variable {r : Reader} {stop : Nat} {a a' : Assembly} {w : Wire} {out : List Emission}
  {result : Walked} {notifications : List Notification}

/-- A walk hands on the notifications of its events. -/
theorem Reader.readWalk_eq
    (hrun : Runs (walkStep ⟨r.types, r.declarations.active, stop⟩ true) (Walk.start w) out result)
    (hconsumed : a.run (told out) = some (notifications, a'))
    (visitor : σ → Notification → σ × ControlFlow B) (c : σ) :
    r.readWalk stop visitor (a, c) w =
      endedRead (result.1.map fun _ => ()) (visit visitor c notifications) := by
  obtain ⟨last, hvisit⟩ := visit_consumer visitor hconsumed c
  have hwalk := walk_walked hrun (consumer visitor) (a, c)
  rw [hvisit] at hwalk
  unfold Reader.readWalk
  generalize walk ⟨r.types, r.declarations.active, stop⟩ true (consumer visitor) (a, c) w =
    returned at hwalk ⊢
  obtain ⟨⟨b, c'⟩, outcome, offset⟩ := returned
  obtain ⟨ends, wire⟩ := result
  generalize visit visitor c notifications = visited at hwalk ⊢
  obtain ⟨d, _ | value⟩ := visited
  · cases ends with
    | error e => rcases outcome with e' | ⟨flow, span⟩ <;> cases hwalk; rfl
    | ok last => rcases outcome with e' | ⟨flow, span⟩ <;> cases hwalk; rfl
  · rcases outcome with e' | ⟨flow, span⟩ <;> cases hwalk; rfl

/-- An indexed read hands on the notifications of its events. -/
theorem Reader.readBody_tried {env : ReadEnv} {x : Index}
    (hindex : (r.index.filter fun _ => a.routes.isNone) = some x) {events : List Event}
    {failure : Except Error Unit}
    (hreads : ∀ {σ B : Type} (visitor : σ → Event → σ × ControlFlow B) (c : σ),
      x.read env.checked env.reserved r.types r.declarations.active (sourceIdsOf a.dependencies)
        stop visitor c w = Index.tried failure (visit visitor c events))
    (hconsumed : a.run events = some (notifications, a'))
    (visitor : σ → Notification → σ × ControlFlow B) (c : σ) :
    r.readBody env stop visitor (a, c) w =
      endedRead failure (visit visitor c notifications) := by
  obtain ⟨last, hvisit⟩ := visit_consumer visitor hconsumed c
  have hx := hreads (consumer visitor) (a, c)
  rw [hvisit] at hx
  simp only [readBody, hindex, hx]
  rcases visit visitor c notifications with ⟨c', _ | value⟩
  · cases failure <;> rfl
  · rfl

end

end

/-! ## Accepted files -/

/-- A file was opened: its types and its declarations were accepted, the body was walked to its end,
and the index, when it is kept, was built of the events of that walk. The input of a later read need
not hold this body any more. -/
structure Reader.Accepted (r : Reader) (checked : Bool) : Prop where
  parsed : ∃ strings w w', Types.parse strings w = (.ok r.types, w')
  declared : ∃ w w', Declarations.read r.types w = (.ok r.declarations, w')
  body : ∃ wire events span offset, wire.bytes.length < 2 ^ 64 ∧
    walk ⟨r.types, r.declarations.active, 2 ^ 64 - 1⟩ true
      (fun seen e => (seen ++ [e], ControlFlow.continue (B := Empty))) [] wire =
        (events, .ok (.continue, span), offset) ∧
    ∀ x, r.index = some x → ∃ limit answers, limit ≤ indexBytes ∧
      (Index.withLimit r.declarations.active.length limit answers >>=
        Index.visitAll checked events >>= Index.complete) = .ok (some x)

/-- The notifications of a read: those that the consumer makes of events that are delivered. -/
structure Reader.Assembles (r : Reader) (signals : List Signal) (slots : List Recipe) (a : Assembly)
    (events : List Event) (notifications : List Notification) : Prop where
  prepared : Prepared r.types r.declarations signals slots a
  indices : a.buffers.map Buffer.index = signals.map Signal.index
  delivered : EventsDelivered r.types r.declarations.active (sourceIdsOf a.dependencies) events
  consumed : ∃ a', a.run events = some (notifications, a')

section
variable {r : Reader} {signals : List Signal} {slots : List Recipe} {a : Assembly} {w : Wire}

/-- Events that are delivered to a read that is prepared have notifications. -/
theorem Reader.assembles_of_delivered (h : Prepared r.types r.declarations signals slots a)
    (hindices : a.buffers.map Buffer.index = signals.map Signal.index) {events : List Event}
    (hevents : EventsDelivered r.types r.declarations.active (sourceIdsOf a.dependencies) events) :
    ∃ notifications, r.Assembles signals slots a events notifications := by
  obtain ⟨notifications, a', hrun, -, -⟩ :=
    run_counted h.suit h.sorted events a [] h.fitted h.fresh.counted hevents
  exact ⟨notifications, h, hindices, hevents, a', hrun⟩

/-- A prepared walk hands on some notifications. -/
theorem Reader.walk_hands (h : Prepared r.types r.declarations signals slots a)
    (hindices : a.buffers.map Buffer.index = signals.map Signal.index) (stop : Nat) :
    ∃ events notifications ending, r.Assembles signals slots a events notifications ∧
      ∀ {σ B : Type} (visitor : σ → Notification → σ × ControlFlow B) (c : σ),
        r.readWalk stop visitor (a, c) w =
          endedRead ending (visit visitor c notifications) := by
  obtain ⟨out, result, hrun⟩ :=
    walk_total ⟨r.types, r.declarations.active, stop⟩ true (Walk.start w)
  have hevents : EventsDelivered r.types r.declarations.active (sourceIdsOf a.dependencies)
      (told out) := by
    intro e he
    obtain ⟨emission, hemission, heq⟩ := List.mem_map.1 he
    exact walk_delivered (sourceIdsOf a.dependencies) hrun emission hemission e heq
  obtain ⟨notifications, hassembles⟩ := assembles_of_delivered h hindices hevents
  obtain ⟨a', hconsumed⟩ := hassembles.consumed
  exact ⟨told out, notifications, _, hassembles, fun visitor c =>
    readWalk_eq hrun hconsumed visitor c⟩

/-- The index of an accepted file has the positions of some lists. -/
theorem Reader.Accepted.records {checked : Bool} (h : r.Accepted checked) {x : Index}
    (hx : r.index = some x) :
    ∃ lists, Index.Records checked r.declarations.active.length lists x := by
  obtain ⟨wire, events, span, offset, hsize, hwalk, hbuilt⟩ := h.body
  obtain ⟨limit, answers, hlimit, hbuild⟩ := hbuilt x hx
  obtain ⟨out, result, hrun, hok, rfl⟩ := accepted_runs hwalk
  obtain ⟨⟨lists, hlaid, htold⟩, -⟩ := walk_laid hrun hok
  rw [htold] at hbuild
  exact ⟨lists, spelled_records hlaid hsize hlimit hbuild⟩

/-- A prepared read of an accepted file hands on some notifications. -/
theorem Reader.Accepted.body_hands {env : ReadEnv} (h : r.Accepted env.checked)
    (hprepared : Prepared r.types r.declarations signals slots a)
    (hindices : a.buffers.map Buffer.index = signals.map Signal.index) (stop : Nat) :
    ∃ events notifications ending, r.Assembles signals slots a events notifications ∧
      ∀ {σ B : Type} (visitor : σ → Notification → σ × ControlFlow B) (c : σ),
        r.readBody env stop visitor (a, c) (r.wire.seek r.bodyStart) =
          endedRead ending (visit visitor c notifications) := by
  obtain ⟨events, notifications, ending, hassembles, hwalk⟩ :=
    walk_hands hprepared hindices stop (w := r.wire.seek r.bodyStart)
  cases hindex : r.index.filter fun _ => a.routes.isNone with
  | none =>
    refine ⟨events, notifications, ending, hassembles, fun visitor c => ?_⟩
    simp only [readBody, hindex]
    exact hwalk visitor c
  | some x =>
    obtain ⟨lists, hrecords⟩ := h.records (Option.filter_eq_some_iff.1 hindex).1
    have hlisted : ∀ id ∈ sourceIdsOf a.dependencies, ∃ type,
        (id, type) ∈ r.declarations.active := by
      intro id hid
      obtain ⟨dependency, hmem, rfl⟩ := (mem_sourceIdsOf hprepared.fitted.sorted).1 hid
      exact hprepared.fitted.listed hprepared.suit hmem
    obtain ⟨hreads, hleaves⟩ := Index.read_any (w := r.wire.seek r.bodyStart) hrecords
      hprepared.sorted (sourceIdsOf_ascend hprepared.fitted.sorted) hlisted r.types stop
      env.reserved
    by_cases hgranted : Index.Granted env.reserved (sourceIdsOf a.dependencies)
    · obtain ⟨events', failure, hdelivered, hread⟩ := hreads hgranted
      obtain ⟨notifications', hassembles'⟩ :=
        assembles_of_delivered hprepared hindices hdelivered
      obtain ⟨a', hconsumed⟩ := hassembles'.consumed
      exact ⟨events', notifications', failure, hassembles', fun visitor c =>
        readBody_tried hindex hread hconsumed visitor c⟩
    · refine ⟨events, notifications, ending, hassembles, fun visitor c => ?_⟩
      simp only [readBody, hindex, hleaves hgranted (consumer visitor) (a, c)]
      exact hwalk visitor c

/-- **What a read hands over.** A read of an accepted file hands some notifications to any visitor,
and ends in one way: well, with the break of the visitor, or with an error of the input. It hands
over nothing, or what the consumer makes of events that are delivered. -/
theorem Reader.Accepted.hands {env : ReadEnv} (h : r.Accepted env.checked) (signals : List Signal)
    (stop : Nat) : ∃ notifications ending, r.Hands env signals stop notifications ending ∧
      (notifications = [] ∨
        ∃ slots a events, r.Assembles signals slots a events notifications) := by
  by_cases hempty : signals.isEmpty
  · refine ⟨[], .ok (), fun visitor c => ?_, .inl rfl⟩
    unfold Reader.read
    rw [if_pos hempty]
    rfl
  cases hseek : env.seek with
  | some message =>
    refine ⟨[], .error (.io message), fun visitor c => ?_, .inl rfl⟩
    unfold Reader.read
    rw [if_neg hempty, hseek]
    rfl
  | none =>
  rcases hprepare : prepare r.types r.declarations.recipes r.declarations.active r.index.isSome
    env.sort signals (r.wire.seek r.bodyStart) with ⟨e | a, w⟩
  · refine ⟨[], .error e, fun visitor c => ?_, .inl rfl⟩
    unfold Reader.read
    rw [if_neg hempty, hseek]
    dsimp only
    rw [hprepare]
    rfl
  -- The signals have recipes, for the read is prepared.
  obtain ⟨strings, w₀, w₁, hparse⟩ := h.parsed
  obtain ⟨w₂, w₃, hread⟩ := h.declared
  obtain ⟨slots, hslots, -, -⟩ := prepare_fitted env.sorts hprepare
  have hsignals : ∀ signal ∈ signals, signal.index < r.declarations.recipes.length := by
    intro signal hsignal
    obtain ⟨slot, hslot⟩ := List.mem_iff_getElem?.1 hsignal
    obtain ⟨recipe, -, hrecipe⟩ := forall₂_getElem? hslots hslot
    exact (List.getElem?_eq_some_iff.1 hrecipe).1
  obtain ⟨a', slots', hprepare', hprepared⟩ := read_prepared hparse hread env.sorts hsignals
    r.index.isSome (r.wire.seek r.bodyStart)
  cases hprepare.symm.trans hprepare'
  obtain ⟨events, notifications, ending, hassembles, hbody⟩ :=
    h.body_hands hprepared (prepare_indices hprepare) stop
  refine ⟨notifications, ending, fun visitor c => ?_, .inr ⟨slots', a, events, hassembles⟩⟩
  unfold Reader.read
  rw [if_neg hempty, hseek]
  dsimp only
  rw [hprepare]
  exact hbody visitor c

end

end Ondas.Ghw
