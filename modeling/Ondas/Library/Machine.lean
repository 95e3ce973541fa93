import Mathlib.Algebra.Order.Ring.Int
import Mathlib.Data.List.Basic

/-!
# Emitting machines and early-exit callbacks

A loop that reads an input and hands records to a callback is two things: a machine that emits
records while it takes steps (`Runs`), and a callback that may stop the delivery (`visit`). The
machine does not see the callback, so the loop with its callback (`drive`) is the machine's whole
output fed to the callback (`drive_eq_visit`). Facts about what a loop delivers are then facts about
`Runs`, proved by induction on the steps, and two loops are compared by a simulation
(`Runs.matched`).
-/

namespace Ondas.Library

variable {α β σ B S S' R R' : Type*}

/-- What a callback answers: go on, or stop with a value. -/
inductive ControlFlow (B : Type*) where
  | continue
  | break (value : B)
  deriving DecidableEq, Repr

/-- Feed a list to a callback with state, until it breaks. -/
def visit (callback : σ → α → σ × ControlFlow B) : σ → List α → σ × ControlFlow B
  | c, [] => (c, .continue)
  | c, a :: rest =>
    match callback c a with
    | (c', .continue) => visit callback c' rest
    | (c', .break b) => (c', .break b)

@[simp] theorem visit_nil (callback : σ → α → σ × ControlFlow B) (c : σ) :
    visit callback c [] = (c, .continue) := rfl

/-- A visit of two lists one after the other: the second is visited when the first one did not
break. -/
theorem visit_append (callback : σ → α → σ × ControlFlow B) (c : σ) (xs ys : List α) :
    visit callback c (xs ++ ys) =
      match visit callback c xs with
      | (c', .continue) => visit callback c' ys
      | (c', .break b) => (c', .break b) := by
  induction xs generalizing c with
  | nil => rfl
  | cons x xs ih =>
    simp only [List.cons_append, visit]
    rcases callback c x with ⟨c', _ | b⟩
    · exact ih c'
    · rfl

/-- A visit through a renaming of the records. -/
theorem visit_map (callback : σ → β → σ × ControlFlow B) (f : α → β) (c : σ) (xs : List α) :
    visit callback c (xs.map f) = visit (fun c a => callback c (f a)) c xs := by
  induction xs generalizing c with
  | nil => rfl
  | cons x xs ih =>
    simp only [List.map_cons, visit]
    rcases callback c (f x) with ⟨c', _ | b⟩
    · exact ih c'
    · rfl

/-- A callback that never breaks visits the whole list, folding its state. -/
theorem visit_continue (next : σ → α → σ) (c : σ) (xs : List α) :
    visit (B := B) (fun c a => (next c a, .continue)) c xs = (xs.foldl next c, .continue) := by
  induction xs generalizing c with
  | nil => rfl
  | cons x xs ih => exact ih (next c x)

/-- Collecting records appends them. -/
theorem visit_push (collected more : List α) :
    visit (B := B) (fun collected a => (collected ++ [a], .continue)) collected more =
      (collected ++ more, .continue) := by
  induction more generalizing collected with
  | nil => rw [List.append_nil]; rfl
  | cons a more ih =>
    have hstep := ih (collected ++ [a])
    rw [List.append_assoc, List.singleton_append] at hstep
    exact hstep

/-- What every call of a callback keeps, a visit keeps. -/
theorem visit_invariant {P : σ → Prop} {callback : σ → α → σ × ControlFlow B} {xs : List α}
    (hstep : ∀ c, ∀ a ∈ xs, P c → P (callback c a).1) {c : σ} (hc : P c) :
    P (visit callback c xs).1 := by
  induction xs generalizing c with
  | nil => exact hc
  | cons x xs ih =>
    have hnext := hstep c x (.head _) hc
    unfold visit
    rcases hx : callback c x with ⟨c', _ | b⟩
    · rw [hx] at hnext
      exact ih (fun c a ha => hstep c a (.tail _ ha)) hnext
    · rw [hx] at hnext
      exact hnext

/-- Where one step of a machine leads. -/
inductive Outcome (S R : Type*) where
  | next (state : S)
  | stop (result : R)

section
variable (step : S → List α × Outcome S R)

/-- A machine steps from one state to another, emitting `out` on the way. -/
inductive Steps : S → List α → S → Prop
  | refl (s : S) : Steps s [] s
  | head {s s' t : S} {emitted out : List α} : step s = (emitted, .next s') → Steps s' out t →
      Steps s (emitted ++ out) t

/-- A machine runs to its end, emitting `out` and stopping with a result. -/
inductive Runs : S → List α → R → Prop
  | stop {s : S} {emitted : List α} {r : R} : step s = (emitted, .stop r) → Runs s emitted r
  | next {s s' : S} {emitted out : List α} {r : R} : step s = (emitted, .next s') →
      Runs s' out r → Runs s (emitted ++ out) r

/-- How a driven machine ended: the callback broke, the machine stopped, or the fuel ran out. -/
inductive Ending (B R : Type*) where
  | broke (value : B)
  | finished (result : R)
  | exhausted

/-- Run a machine against a callback. This is a source loop with its callback inside. -/
def drive (callback : σ → α → σ × ControlFlow B) : Nat → σ → S → σ × Ending B R
  | 0, c, _ => (c, .exhausted)
  | fuel + 1, c, s =>
    match visit callback c (step s).1 with
    | (c', .break b) => (c', .broke b)
    | (c', .continue) =>
      match (step s).2 with
      | .next s' => drive callback fuel c' s'
      | .stop r => (c', .finished r)

end

section
variable {step : S → List α × Outcome S R}

/-- One step is a step sequence. -/
theorem Steps.single {s s' : S} {emitted : List α} (h : step s = (emitted, .next s')) :
    Steps step s emitted s' := by
  simpa using Steps.head h (.refl s')

/-- Step sequences compose. -/
theorem Steps.trans {s t u : S} {out out' : List α} (h : Steps step s out t)
    (h' : Steps step t out' u) : Steps step s (out ++ out') u := by
  induction h with
  | refl => exact h'
  | head hs _ ih => rw [List.append_assoc]; exact .head hs (ih h')

/-- A step sequence followed by a run is a run. -/
theorem Steps.runs {s t : S} {out out' : List α} {r : R} (h : Steps step s out t)
    (h' : Runs step t out' r) : Runs step s (out ++ out') r := by
  induction h with
  | refl => exact h'
  | head hs _ ih => rw [List.append_assoc]; exact .next hs (ih h')

/-- A machine is deterministic: it has one run from a state. -/
theorem Runs.unique {s : S} {out out' : List α} {r r' : R} (h : Runs step s out r)
    (h' : Runs step s out' r') : out = out' ∧ r = r' := by
  induction h generalizing out' with
  | stop hs =>
    cases h' with
    | stop hs' => rw [hs] at hs'; cases hs'; exact ⟨rfl, rfl⟩
    | next hs' _ => rw [hs] at hs'; cases hs'
  | next hs _ ih =>
    cases h' with
    | stop hs' => rw [hs] at hs'; cases hs'
    | next hs' ht' =>
      rw [hs] at hs'
      cases hs'
      obtain ⟨rfl, rfl⟩ := ih ht'
      exact ⟨rfl, rfl⟩

/-- What remains of a run after some of its steps is the run from where they lead. -/
theorem Steps.rest {s t : S} {out whole : List α} {r : R} (h : Steps step s out t)
    (h' : Runs step s whole r) : ∃ tail, whole = out ++ tail ∧ Runs step t tail r := by
  induction h generalizing whole with
  | refl => exact ⟨whole, rfl, h'⟩
  | head hs _ ih =>
    cases h' with
    | stop hs' => rw [hs] at hs'; cases hs'
    | next hs' ht' =>
      rw [hs] at hs'
      cases hs'
      obtain ⟨tail, rfl, ht⟩ := ih ht'
      exact ⟨tail, by rw [List.append_assoc], ht⟩

/-- A run is a step sequence to the state whose step stops. -/
theorem Runs.last {s : S} {out : List α} {r : R} (h : Runs step s out r) :
    ∃ t pre post, out = pre ++ post ∧ Steps step s pre t ∧ step t = (post, .stop r) := by
  induction h with
  | @stop s emitted r hs => exact ⟨s, [], emitted, rfl, .refl s, hs⟩
  | next hs _ ih =>
    obtain ⟨t, pre, post, rfl, hpre, hpost⟩ := ih
    exact ⟨t, _, post, by rw [List.append_assoc], .head hs hpre, hpost⟩

/-- What every step keeps holds in every state reached. -/
theorem Steps.invariant {P : S → Prop}
    (keep : ∀ s emitted s', P s → step s = (emitted, .next s') → P s')
    {s t : S} {out : List α} (h : Steps step s out t) (hs : P s) : P t := by
  induction h with
  | refl => exact hs
  | head hstep _ ih => exact ih (keep _ _ _ hs hstep)

/-- A machine whose steps decrease a measure runs to its end. -/
theorem Runs.total (size : S → Nat)
    (decrease : ∀ s emitted s', step s = (emitted, .next s') → size s' < size s) (s : S) :
    ∃ out r, Runs step s out r := by
  induction hn : size s using Nat.strongRecOn generalizing s with
  | ind n ih =>
    cases hs : step s with
    | mk emitted o =>
      cases o with
      | stop r => exact ⟨emitted, r, .stop hs⟩
      | next s' =>
        obtain ⟨out, r, hr⟩ := ih (size s') (hn ▸ decrease s emitted s' hs) s' rfl
        exact ⟨emitted ++ out, r, .next hs hr⟩

/-- Driving a machine with enough fuel feeds its whole output to the callback, and ends as the
machine ends when the callback does not break. -/
theorem drive_eq_visit (callback : σ → α → σ × ControlFlow B) (size : S → Nat)
    (decrease : ∀ s emitted s', step s = (emitted, .next s') → size s' < size s)
    {s : S} {out : List α} {r : R} (h : Runs step s out r) (c : σ) (fuel : Nat)
    (enough : size s < fuel) :
    drive step callback fuel c s =
      match visit callback c out with
      | (c', .break b) => (c', .broke b)
      | (c', .continue) => (c', .finished r) := by
  induction h generalizing c fuel with
  | stop hs =>
    cases fuel with
    | zero => omega
    | succ fuel => simp only [drive, hs]
  | @next s s' emitted out r hs _ ih =>
    cases fuel with
    | zero => omega
    | succ fuel =>
      have hlt := decrease s emitted s' hs
      simp only [drive, hs, visit_append]
      rcases visit callback c emitted with ⟨c', _ | b⟩
      · exact ih c' fuel (by omega)
      · rfl

/-- How a driven machine ends that has fed everything to its callback. -/
def ending (r : R) : σ × ControlFlow B → σ × Ending B R
  | (c, .continue) => (c, .finished r)
  | (c, .break b) => (c, .broke b)

/-- A machine whose step stops ends there. -/
theorem drive_stop (callback : σ → α → σ × ControlFlow B) {s : S} {emitted : List α} {r : R}
    (h : step s = (emitted, .stop r)) (fuel : Nat) (c : σ) :
    drive step callback (fuel + 1) c s = ending r (visit callback c emitted) := by
  simp only [drive, h]
  rcases visit callback c emitted with ⟨c', _ | b⟩ <;> rfl

/-- A machine that takes a step ends as it does from there on. -/
theorem drive_next {callback : σ → α → σ × ControlFlow B} {s s' : S} {emitted out : List α} {r : R}
    {fuel : Nat} (h : step s = (emitted, .next s'))
    (hrest : ∀ c, drive step callback fuel c s' = ending r (visit callback c out)) (c : σ) :
    drive step callback (fuel + 1) c s = ending r (visit callback c (emitted ++ out)) := by
  simp only [drive, h, visit_append]
  rcases visit callback c emitted with ⟨c', _ | b⟩
  · exact hrest c'
  · rfl

end

/-- When every step of one machine is matched by a step of another with the same observation, a run
of the first is matched up to its last step, which stops. -/
theorem Runs.matched {step : S → List α × Outcome S R} {step' : S' → List β × Outcome S' R'}
    {rel : S → S' → Prop} {obs : α → List B} {obs' : β → List B}
    (next : ∀ s t emitted s', rel s t → step s = (emitted, .next s') →
      ∃ emitted' t', step' t = (emitted', .next t') ∧
        emitted'.flatMap obs' = emitted.flatMap obs ∧ rel s' t')
    {s : S} {t : S'} {out : List α} {r : R} (h : Runs step s out r) (hrel : rel s t) :
    ∃ s' t' pre post pre', out = pre ++ post ∧ step s' = (post, .stop r) ∧ Steps step s pre s' ∧
      Steps step' t pre' t' ∧ pre'.flatMap obs' = pre.flatMap obs ∧ rel s' t' := by
  induction h generalizing t with
  | @stop s emitted r hs => exact ⟨s, t, [], emitted, [], rfl, hs, .refl s, .refl t, rfl, hrel⟩
  | next hs _ ih =>
    obtain ⟨emitted', t', ht, hobs, hrel'⟩ := next _ _ _ _ hrel hs
    obtain ⟨u, u', pre, post, pre', rfl, hstop, hpre, hpre', hobs', hu⟩ := ih hrel'
    refine ⟨u, u', _, post, _, (List.append_assoc ..).symm, hstop, .head hs hpre, .head ht hpre',
      ?_, hu⟩
    rw [List.flatMap_append, List.flatMap_append, hobs, hobs']

end Ondas.Library
