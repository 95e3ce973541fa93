import Mathlib.Data.List.Forall2
import Mathlib.Logic.Relation
import Ondas.Library.Machine

/-!
# Workers drained in order

Workers make items at their own pace, each sends them in batches over a bounded channel of its own,
and a consumer empties the channels one after the other in the order of the workers, handing the
items to a callback. `Crew` is what a worker can do, whatever it is, and `Pipe.Step` one step of the
whole system: of any worker, of any channel or of the consumer.

What a worker will still send (`Lawful`) is a stream: items, and the failure they end with, if any.
Whichever steps are taken, the consumer's answer is that of the callback on the drained streams
(`Pipe.Answers.run`), some step can be taken until all threads are joined (`Pipe.progress`), and no
run goes on for ever (`Pipe.wellFounded`).
-/

namespace Ondas.Library

/-! ## Streams -/

section
variable {α ε σ B : Type}

/-- What a channel and then its sender hand over, which ends with the first failure. -/
def received : List (Except ε (List α)) → List α × Option ε → List α × Option ε
  | [], rest => rest
  | .ok batch :: messages, rest => (batch ++ (received messages rest).1, (received messages rest).2)
  | .error e :: _, _ => ([], some e)

/-- Streams one after the other, up to the first that fails. -/
def drained : List (List α × Option ε) → List α × Option ε
  | [] => ([], none)
  | (items, none) :: rest => (items ++ (drained rest).1, (drained rest).2)
  | (items, some e) :: _ => (items, some e)

/-- What a callback and the end of a stream answer. -/
def answer (callback : σ → α → σ × ControlFlow B) (c : σ) (stream : List α × Option ε) :
    σ × Except ε (ControlFlow B) :=
  match visit callback c stream.1 with
  | (c, .break b) => (c, .ok (.break b))
  | (c, .continue) =>
    match stream.2 with
    | some e => (c, .error e)
    | none => (c, .ok .continue)

/-- One more message in a channel comes before what its sender still sends. -/
theorem received_append (messages : List (Except ε (List α))) (message : Except ε (List α))
    (rest : List α × Option ε) :
    received (messages ++ [message]) rest = received messages (received [message] rest) := by
  induction messages with
  | nil => rfl
  | cons first messages ih =>
    cases first with
    | error e => rfl
    | ok batch => simp only [List.cons_append, received, ih]

/-- Items at the front of the first stream are drained first. -/
theorem drained_append (batch items : List α) (failure : Option ε)
    (rest : List (List α × Option ε)) :
    drained ((batch ++ items, failure) :: rest) =
      (batch ++ (drained ((items, failure) :: rest)).1,
        (drained ((items, failure) :: rest)).2) := by
  cases failure with
  | none => simp only [drained, List.append_assoc]
  | some e => rfl

/-- A callback goes on after an item it does not break at. -/
theorem answer_cons {callback : σ → α → σ × ControlFlow B} {c c' : σ} {a : α} {items : List α}
    {failure : Option ε} (h : callback c a = (c', .continue)) :
    answer callback c (a :: items, failure) = answer callback c' (items, failure) := by
  simp only [answer, visit, h]

/-- A callback that breaks has its answer. -/
theorem answer_break {callback : σ → α → σ × ControlFlow B} {c c' : σ} {a : α} {b : B}
    {items : List α} {failure : Option ε} (h : callback c a = (c', .break b)) :
    answer callback c (a :: items, failure) = (c', .ok (.break b)) := by
  simp only [answer, visit, h]

end

/-! ## The system -/

/-- What workers can do: a step of their own, under their number, the number of the channel that a
load of the shared counter finds, and whether the run is canceled; an attempt to send a message, and
what they are after it; and giving up when nobody receives. -/
structure Crew (W α ε : Type) where
  own : Nat → Nat → Bool → W → W → Prop
  offer : W → Option (Except ε (List α) × W)
  quit : W → W
  closed : W → Bool

/-- The workers with their channels, the number of the channel that is emptied, the two shared
flags, the items of the last batch that are not handed over, and the consumer with its answer. -/
structure Pipe (W α ε σ B : Type) where
  workers : List (W × List (Except ε (List α)))
  active : Nat
  canceled : Bool
  hungUp : Bool
  pending : List α
  visited : σ
  output : Option (Except ε (ControlFlow B))

section
variable {W α ε σ B : Type}

/-- All threads have ended after the consumer has its answer. -/
def Pipe.Joined (crew : Crew W α ε) (s : Pipe W α ε σ B) : Prop :=
  s.output.isSome ∧ s.hungUp = true ∧ ∀ worker ∈ s.workers, crew.closed worker.1 = true

/-- One step of the system. -/
inductive Pipe.Step (crew : Crew W α ε) (capacity : Nat) (callback : σ → α → σ × ControlFlow B) :
    Pipe W α ε σ B → Pipe W α ε σ B → Prop
  | own {s : Pipe W α ε σ B} {i flag : Nat} {w w' : W} {messages : List (Except ε (List α))} :
      s.workers[i]? = some (w, messages) → flag ≤ s.active → crew.own i flag s.canceled w w' →
      Step crew capacity callback s { s with workers := s.workers.set i (w', messages) }
  | send {s : Pipe W α ε σ B} {i : Nat} {w w' : W} {messages : List (Except ε (List α))}
      {message : Except ε (List α)} : s.workers[i]? = some (w, messages) →
      crew.offer w = some (message, w') → s.hungUp = false → messages.length < capacity →
      Step crew capacity callback s
      { s with workers := s.workers.set i (w', messages ++ [message]) }
  | quit {s : Pipe W α ε σ B} {i : Nat} {w : W} {messages : List (Except ε (List α))} :
      s.workers[i]? = some (w, messages) → (crew.offer w).isSome → s.hungUp = true →
      Step crew capacity callback s { s with workers := s.workers.set i (crew.quit w, messages) }
  | receive {s : Pipe W α ε σ B} {w : W} {batch : List α} {messages : List (Except ε (List α))} :
      s.output = none → s.pending = [] → s.workers[s.active]? = some (w, .ok batch :: messages) →
      Step crew capacity callback s
        { s with workers := s.workers.set s.active (w, messages), pending := batch }
  | fail {s : Pipe W α ε σ B} {w : W} {e : ε} {messages : List (Except ε (List α))} :
      s.output = none → s.pending = [] → s.workers[s.active]? = some (w, .error e :: messages) →
      Step crew capacity callback s
        { s with workers := s.workers.set s.active (w, messages), output := some (.error e) }
  | visit {s : Pipe W α ε σ B} {a : α} {rest : List α} {c : σ} : s.output = none →
      s.pending = a :: rest → callback s.visited a = (c, .continue) →
      Step crew capacity callback s { s with pending := rest, visited := c }
  | break {s : Pipe W α ε σ B} {a : α} {rest : List α} {c : σ} {b : B} : s.output = none →
      s.pending = a :: rest → callback s.visited a = (c, .break b) →
      Step crew capacity callback s
        { s with pending := rest, visited := c, output := some (.ok (.break b)) }
  | next {s : Pipe W α ε σ B} {w : W} : s.output = none → s.pending = [] →
      s.workers[s.active]? = some (w, []) → crew.closed w = true →
      Step crew capacity callback s { s with active := s.active + 1 }
  | done {s : Pipe W α ε σ B} : s.output = none → s.pending = [] →
      s.workers.length ≤ s.active →
      Step crew capacity callback s { s with output := some (.ok .continue) }
  | cancel {s : Pipe W α ε σ B} {out : Except ε (ControlFlow B)} : s.output = some out →
      s.canceled = false → (∀ c, out = .ok c → c ≠ .continue) →
      Step crew capacity callback s { s with canceled := true }
  | hangUp {s : Pipe W α ε σ B} {out : Except ε (ControlFlow B)} : s.output = some out →
      s.hungUp = false → s.canceled = true ∨ out = .ok .continue →
      Step crew capacity callback s { s with hungUp := true }

/-- What a worker will still send, and how far it is from its end: its own steps, its sends and
giving up bring it nearer, and it has one of these until it is closed. A worker whose run is not
canceled keeps to its stream. -/
structure Crew.Lawful (crew : Crew W α ε) (makes : W → List α × Option ε → Prop)
    (distance : W → Nat) : Prop where
  own : ∀ {i flag : Nat} {w w' : W} {stream : List α × Option ε}, crew.own i flag false w w' →
    makes w stream → makes w' stream
  send : ∀ {w w' : W} {message : Except ε (List α)} {stream : List α × Option ε},
    crew.offer w = some (message, w') → makes w stream →
      ∃ stream', makes w' stream' ∧ stream = received [message] stream'
  closed : ∀ {w : W} {stream : List α × Option ε}, crew.closed w = true → makes w stream →
    stream = ([], none)
  own_nearer : ∀ {i flag : Nat} {canceled : Bool} {w w' : W}, crew.own i flag canceled w w' →
    distance w' < distance w
  send_nearer : ∀ {w w' : W} {message : Except ε (List α)}, crew.offer w = some (message, w') →
    distance w' < distance w
  quit_nearer : ∀ {w : W}, (crew.offer w).isSome → distance (crew.quit w) < distance w
  busy : ∀ (i flag : Nat) (canceled : Bool) (w : W), crew.closed w = false →
    (crew.offer w).isSome ∨ ∃ w', crew.own i flag canceled w w'

variable {crew : Crew W α ε} {capacity : Nat} {callback : σ → α → σ × ControlFlow B}
  {makes : W → List α × Option ε → Prop} {distance : W → Nat} {s s' : Pipe W α ε σ B}

/-! ## What the consumer answers -/

/-- A worker and its channel still hand over a stream. -/
def HandsOver (makes : W → List α × Option ε → Prop) (worker : W × List (Except ε (List α)))
    (stream : List α × Option ε) : Prop :=
  ∃ rest, makes worker.1 rest ∧ stream = received worker.2 rest

/-- The consumer has its answer, or it will have it from what the channels still hand over. -/
def Pipe.Answers (makes : W → List α × Option ε → Prop) (callback : σ → α → σ × ControlFlow B)
    (result : σ × Except ε (ControlFlow B)) (s : Pipe W α ε σ B) : Prop :=
  match s.output with
  | some out => (s.visited, out) = result
  | none => s.canceled = false ∧ s.hungUp = false ∧ ∃ streams,
      List.Forall₂ (HandsOver makes) (s.workers.drop s.active) streams ∧
        answer callback s.visited (s.pending ++ (drained streams).1, (drained streams).2) = result

/-- A change of one worker that keeps what it hands over. -/
theorem forall₂_set {makes : W → List α × Option ε → Prop}
    {workers : List (W × List (Except ε (List α)))} {streams : List (List α × Option ε)}
    (h : List.Forall₂ (HandsOver makes) workers streams) : ∀ {i : Nat}
    {worker worker' : W × List (Except ε (List α))}, workers[i]? = some worker →
    (∀ stream, HandsOver makes worker stream → HandsOver makes worker' stream) →
    List.Forall₂ (HandsOver makes) (workers.set i worker') streams := by
  induction h with
  | nil => exact fun hi _ => by cases hi
  | @cons first stream workers streams hfirst hrest ih =>
    intro i worker worker' hi hkeep
    cases i with
    | zero =>
      cases hi
      exact .cons (hkeep stream hfirst) hrest
    | succ i => exact .cons hfirst (ih hi hkeep)

/-- What the channels from the active one on hand over stays when one worker keeps it. -/
theorem drop_set {makes : W → List α × Option ε → Prop}
    {workers : List (W × List (Except ε (List α)))} {streams : List (List α × Option ε)}
    {active : Nat} (h : List.Forall₂ (HandsOver makes) (workers.drop active) streams) {i : Nat}
    {worker worker' : W × List (Except ε (List α))} (hi : workers[i]? = some worker)
    (hkeep : ∀ stream, HandsOver makes worker stream → HandsOver makes worker' stream) :
    List.Forall₂ (HandsOver makes) ((workers.set i worker').drop active) streams := by
  rw [List.drop_set]
  split
  · exact h
  next hle =>
  refine forall₂_set h (i := i - active) ?_ hkeep
  rw [List.getElem?_drop]
  rw [Nat.add_sub_cancel' (Nat.le_of_not_lt hle)]
  exact hi

/-- The active channel is the first that is not empty. -/
theorem drop_active {workers : List (W × List (Except ε (List α)))} {active : Nat}
    {worker : W × List (Except ε (List α))} (h : workers[active]? = some worker) :
    workers.drop active = worker :: workers.drop (active + 1) := by
  obtain ⟨hlt, hget⟩ := List.getElem?_eq_some_iff.1 h
  rw [List.drop_eq_getElem_cons hlt, hget]

/-- **One step.** Whatever step is taken, the answer stays. -/
theorem Pipe.Answers.step (hlawful : crew.Lawful makes distance)
    {result : σ × Except ε (ControlFlow B)} (h : s.Answers makes callback result)
    (hstep : s.Step crew capacity callback s') : s'.Answers makes callback result := by
  -- Before there is an answer, a step of a worker keeps what it and its channel hand over.
  have hworker : ∀ {i : Nat} {worker worker' : W × List (Except ε (List α))},
      s.workers[i]? = some worker →
      (s.output = none → s.canceled = false → s.hungUp = false → ∀ stream,
        HandsOver makes worker stream → HandsOver makes worker' stream) →
      Pipe.Answers makes callback result { s with workers := s.workers.set i worker' } := by
    intro i worker worker' hi hkeep
    unfold Pipe.Answers at h ⊢
    dsimp only
    cases hout : s.output with
    | some out =>
      rw [hout] at h
      exact h
    | none =>
      rw [hout] at h
      obtain ⟨hcanceled, hhung, streams, hstreams, hanswer⟩ := h
      exact ⟨hcanceled, hhung, streams, drop_set hstreams hi (hkeep hout hcanceled hhung), hanswer⟩
  cases hstep with
  | own hi _ hown =>
    refine hworker hi fun _ hcanceled _ stream => ?_
    rintro ⟨rest, hmakes, rfl⟩
    exact ⟨rest, hlawful.own (hcanceled ▸ hown) hmakes, rfl⟩
  | @send i w w' messages message hi hoffer _ _ =>
    refine hworker hi fun _ _ _ stream => ?_
    rintro ⟨rest, hmakes, rfl⟩
    obtain ⟨rest', hmakes', rfl⟩ := hlawful.send hoffer hmakes
    exact ⟨rest', hmakes', (received_append messages message rest').symm⟩
  | quit hi _ hhung =>
    refine hworker hi fun _ _ hnot => ?_
    rw [hhung] at hnot
    cases hnot
  | @receive w batch messages hout hpending hactive =>
    unfold Pipe.Answers at h ⊢
    rw [hout] at h
    simp only [hout]
    obtain ⟨hcanceled, hhung, streams, hstreams, hanswer⟩ := h
    rw [drop_active hactive] at hstreams
    cases hstreams with
    | @cons _ stream _ streams hfirst hrest =>
      obtain ⟨rest, hmakes, rfl⟩ := hfirst
      refine ⟨hcanceled, hhung, received messages rest :: streams, ?_, ?_⟩
      · rw [drop_active (List.getElem?_set_self (List.getElem?_eq_some_iff.1 hactive).1),
          List.drop_set_of_lt (Nat.lt_succ_self _)]
        exact .cons ⟨rest, hmakes, rfl⟩ hrest
      · rw [hpending, List.nil_append, received, drained_append] at hanswer
        exact hanswer
  | @fail w e messages hout hpending hactive =>
    unfold Pipe.Answers at h ⊢
    rw [hout] at h
    obtain ⟨-, -, streams, hstreams, hanswer⟩ := h
    rw [drop_active hactive] at hstreams
    cases hstreams with
    | cons hfirst hrest =>
      obtain ⟨rest, -, rfl⟩ := hfirst
      rw [hpending] at hanswer
      exact hanswer
  | @visit a rest c hout hpending hcallback =>
    unfold Pipe.Answers at h ⊢
    rw [hout] at h
    simp only [hout]
    obtain ⟨hcanceled, hhung, streams, hstreams, hanswer⟩ := h
    rw [hpending, List.cons_append, answer_cons hcallback] at hanswer
    exact ⟨hcanceled, hhung, streams, hstreams, hanswer⟩
  | @«break» a rest c b hout hpending hcallback =>
    unfold Pipe.Answers at h ⊢
    rw [hout] at h
    obtain ⟨-, -, streams, -, hanswer⟩ := h
    rw [hpending, List.cons_append, answer_break hcallback] at hanswer
    exact hanswer
  | @next w hout hpending hactive hclosed =>
    unfold Pipe.Answers at h ⊢
    rw [hout] at h
    simp only [hout]
    obtain ⟨hcanceled, hhung, streams, hstreams, hanswer⟩ := h
    rw [drop_active hactive] at hstreams
    cases hstreams with
    | @cons _ stream _ streams hfirst hrest =>
      obtain ⟨rest, hmakes, rfl⟩ := hfirst
      obtain rfl := hlawful.closed hclosed hmakes
      exact ⟨hcanceled, hhung, streams, hrest, hanswer⟩
  | done hout hpending hactive =>
    unfold Pipe.Answers at h ⊢
    rw [hout] at h
    obtain ⟨-, -, streams, hstreams, hanswer⟩ := h
    rw [List.drop_of_length_le hactive] at hstreams
    cases hstreams
    rw [hpending] at hanswer
    exact hanswer
  | cancel hout _ _ | hangUp hout _ _ =>
    unfold Pipe.Answers at h ⊢
    simp only [hout] at h ⊢
    exact h

/-- **Every run.** Whichever steps are taken, the consumer answers as its callback does on the
drained streams. -/
theorem Pipe.Answers.run (hlawful : crew.Lawful makes distance)
    {result : σ × Except ε (ControlFlow B)} (h : s.Answers makes callback result)
    (hsteps : Relation.ReflTransGen (Pipe.Step crew capacity callback) s s') :
    s'.Answers makes callback result := by
  induction hsteps with
  | refl => exact h
  | tail _ hstep ih => exact ih.step hlawful hstep

/-! ## Every run comes to an end -/

/-- Some step can be taken until all threads are joined. -/
theorem Pipe.progress (hlawful : crew.Lawful makes distance) (hcapacity : 0 < capacity)
    (s : Pipe W α ε σ B) : s.Joined crew ∨ ∃ s', s.Step crew capacity callback s' := by
  -- A worker that is not closed takes a step of its own, sends or gives up, unless its channel is
  -- full.
  have hbusy : ∀ {i : Nat} {w : W} {messages : List (Except ε (List α))},
      s.workers[i]? = some (w, messages) → crew.closed w = false →
      s.hungUp = true ∨ messages.length < capacity → ∃ s', s.Step crew capacity callback s' := by
    intro i w messages hi hclosed hroom
    rcases hlawful.busy i s.active s.canceled w hclosed with hoffer | ⟨w', hown⟩
    · cases hhung : s.hungUp with
      | true => exact ⟨_, .quit hi hoffer hhung⟩
      | false =>
        obtain ⟨⟨message, w'⟩, hsome⟩ := Option.isSome_iff_exists.1 hoffer
        refine ⟨_, .send hi hsome hhung (hroom.resolve_left ?_)⟩
        rw [hhung]
        decide
    · exact ⟨_, .own hi (Nat.le_refl _) hown⟩
  cases hout : s.output with
  | none =>
    right
    cases hpending : s.pending with
    | cons a rest =>
      rcases hcallback : callback s.visited a with ⟨c, _ | b⟩
      · exact ⟨_, .visit hout hpending hcallback⟩
      · exact ⟨_, .break hout hpending hcallback⟩
    | nil =>
      cases hactive : s.workers[s.active]? with
      | none => exact ⟨_, .done hout hpending (List.getElem?_eq_none_iff.1 hactive)⟩
      | some worker =>
        obtain ⟨w, _ | ⟨e | batch, messages⟩⟩ := worker
        · cases hclosed : crew.closed w with
          | true => exact ⟨_, .next hout hpending hactive hclosed⟩
          | false => exact hbusy hactive hclosed (.inr hcapacity)
        · exact ⟨_, .fail hout hpending hactive⟩
        · exact ⟨_, .receive hout hpending hactive⟩
  | some out =>
    cases hhung : s.hungUp with
    | false =>
      right
      cases hcanceled : s.canceled with
      | true => exact ⟨_, .hangUp hout hhung (.inl hcanceled)⟩
      | false =>
        by_cases hgoes : out = .ok .continue
        · exact ⟨_, .hangUp hout hhung (.inr hgoes)⟩
        · exact ⟨_, .cancel hout hcanceled fun c hc heq => hgoes (heq ▸ hc)⟩
    | true =>
      by_cases hall : ∀ worker ∈ s.workers, crew.closed worker.1 = true
      · exact .inl ⟨by rw [hout]; rfl, hhung, hall⟩
      · right
        obtain ⟨worker, hmem, hopen⟩ : ∃ worker ∈ s.workers, ¬crew.closed worker.1 = true := by
          by_contra hnone
          exact hall fun worker hmem => by_contra fun hopen => hnone ⟨worker, hmem, hopen⟩
        obtain ⟨i, hi⟩ := List.getElem?_of_mem hmem
        exact hbusy hi (Bool.eq_false_iff.2 hopen) (.inl hhung)

/-- The items of a message and the message. -/
def messageWeight : Except ε (List α) → Nat
  | .ok batch => batch.length + 1
  | .error _ => 1

/-- How far the workers are from their ends, and how much is left to the consumer. -/
def Pipe.left (distance : W → Nat) (s : Pipe W α ε σ B) : Nat × Nat :=
  ((s.workers.map fun worker => distance worker.1).sum,
    (s.workers.map fun worker => (worker.2.map messageWeight).sum).sum + s.pending.length +
      (s.workers.length - s.active) + (if s.output.isNone then 1 else 0) +
      (if s.canceled then 0 else 1) + (if s.hungUp then 0 else 1))

/-- A sum of weights when one worker changes. -/
theorem sum_set {β : Type} (weight : β → Nat) (workers : List β) : ∀ {i : Nat} {worker : β}
    (worker' : β), workers[i]? = some worker →
    ((workers.set i worker').map weight).sum + weight worker =
      (workers.map weight).sum + weight worker' := by
  induction workers with
  | nil => exact fun _ hi => by cases hi
  | cons first workers ih =>
    intro i worker worker' hi
    cases i with
    | zero =>
      cases hi
      simp only [List.set_cons_zero, List.map_cons, List.sum_cons]
      omega
    | succ i =>
      have hrest := ih worker' hi
      simp only [List.set_cons_succ, List.map_cons, List.sum_cons]
      omega

/-- Each step leaves less. -/
theorem Pipe.Step.left_lt (hlawful : crew.Lawful makes distance)
    (h : s.Step crew capacity callback s') :
    Prod.Lex (· < ·) (· < ·) (s'.left distance) (s.left distance) := by
  -- A worker that comes nearer to its end counts most.
  have hworker : ∀ {i : Nat} {w w' : W} {messages messages' : List (Except ε (List α))},
      s.workers[i]? = some (w, messages) → distance w' < distance w →
      Prod.Lex (· < ·) (· < ·)
        (Pipe.left distance { s with workers := s.workers.set i (w', messages') })
        (s.left distance) := by
    intro i w w' messages messages' hi hlt
    refine .left _ _ ?_
    have hsum := sum_set (fun worker : W × List (Except ε (List α)) => distance worker.1) s.workers
      (w', messages') hi
    dsimp only at hsum ⊢
    omega
  -- A message that is taken leaves the workers as they are.
  have htake : ∀ {w : W} {message : Except ε (List α)} {messages : List (Except ε (List α))},
      s.workers[s.active]? = some (w, message :: messages) →
      ((s.workers.set s.active (w, messages)).map fun worker => distance worker.1).sum =
          (s.workers.map fun worker => distance worker.1).sum ∧
        ((s.workers.set s.active (w, messages)).map
            fun worker => (worker.2.map messageWeight).sum).sum + messageWeight message =
          (s.workers.map fun worker => (worker.2.map messageWeight).sum).sum := by
    intro w message messages hi
    have hsum := sum_set (fun worker : W × List (Except ε (List α)) => distance worker.1) s.workers
      (w, messages) hi
    have hweight := sum_set (fun worker : W × List (Except ε (List α)) =>
      (worker.2.map messageWeight).sum) s.workers (w, messages) hi
    simp only [List.map_cons, List.sum_cons] at hsum hweight
    omega
  cases h with
  | own hi _ hown => exact hworker hi (hlawful.own_nearer hown)
  | send hi hoffer _ _ => exact hworker hi (hlawful.send_nearer hoffer)
  | quit hi hoffer _ => exact hworker hi (hlawful.quit_nearer hoffer)
  | receive hout hpending hactive =>
    obtain ⟨hsame, hweight⟩ := htake hactive
    rw [Pipe.left, Pipe.left, hsame]
    refine .right _ ?_
    rw [messageWeight] at hweight
    simp only [hpending, List.length_nil, List.length_set]
    omega
  | fail hout hpending hactive =>
    obtain ⟨hsame, hweight⟩ := htake hactive
    rw [Pipe.left, Pipe.left, hsame]
    refine .right _ ?_
    simp only [hout, Option.isNone_some, Option.isNone_none, List.length_set]
    simp only [Bool.false_eq_true, if_false, if_true]
    omega
  | visit hout hpending _ =>
    refine .right _ ?_
    simp only [hpending, List.length_cons]
    omega
  | «break» hout hpending _ =>
    refine .right _ ?_
    simp only [hpending, hout, List.length_cons, Option.isNone_some, Option.isNone_none]
    simp only [Bool.false_eq_true, if_false, if_true]
    omega
  | next hout hpending hactive _ =>
    refine .right _ ?_
    have hlt := (List.getElem?_eq_some_iff.1 hactive).1
    dsimp only
    omega
  | done hout hpending hactive =>
    refine .right _ ?_
    simp only [hout, Option.isNone_some, Option.isNone_none]
    simp only [Bool.false_eq_true, if_false, if_true]
    omega
  | cancel hout hcanceled _ =>
    refine .right _ ?_
    simp only [hcanceled, Bool.false_eq_true, if_false, if_true]
    omega
  | hangUp hout hhung _ =>
    refine .right _ ?_
    simp only [hhung, Bool.false_eq_true, if_false, if_true]
    omega

/-- No run goes on for ever. -/
theorem Pipe.wellFounded (hlawful : crew.Lawful makes distance) :
    WellFounded fun s' s : Pipe W α ε σ B => s.Step crew capacity callback s' :=
  Subrelation.wf (fun h => h.left_lt hlawful)
    (InvImage.wf (Pipe.left distance) (WellFounded.prod_lex Nat.lt_wfRel.wf Nat.lt_wfRel.wf))

variable (callback) in
/-- Some run joins all threads. -/
theorem Pipe.joins (hlawful : crew.Lawful makes distance) (hcapacity : 0 < capacity)
    (s : Pipe W α ε σ B) :
    ∃ s', Relation.ReflTransGen (Pipe.Step crew capacity callback) s s' ∧ s'.Joined crew := by
  have hwellFounded : WellFounded fun s' s : Pipe W α ε σ B => s.Step crew capacity callback s' :=
    Pipe.wellFounded hlawful
  induction s using hwellFounded.induction with
  | h s ih =>
    rcases Pipe.progress hlawful hcapacity s with hjoined | ⟨next, hstep⟩
    · exact ⟨s, .refl, hjoined⟩
    · obtain ⟨s', hsteps, hjoined⟩ := ih next hstep
      exact ⟨s', .head hstep hsteps, hjoined⟩

/-- The consumer of joined threads has its answer. -/
theorem Pipe.Answers.joined {result : σ × Except ε (ControlFlow B)}
    (h : s.Answers makes callback result) (hjoined : s.Joined crew) :
    ∃ out, s.output = some out ∧ (s.visited, out) = result := by
  obtain ⟨out, hout⟩ := Option.isSome_iff_exists.1 hjoined.1
  unfold Pipe.Answers at h
  rw [hout] at h
  exact ⟨out, hout, h⟩

end

end Ondas.Library
