import Mathlib.Algebra.Order.Ring.Int
import Mathlib.Data.List.Basic

/-!
# Readers of an input

A decoder takes an input, answers a result or an error, and leaves an input, also when it fails: how
far a failed read came is part of its meaning. Two decoders run one after the other when the first
one succeeds (`bind_eq_ok`, `bind_eq_error`). A decoder respects a relation of inputs when related
inputs give one answer and leave related inputs (`Respects`); the rules say which compositions do,
so that a format whose primitive reads respect a relation respects it as a whole. What a decoder
ensures of its answers (`Ensures`) composes in the same way, and so does what it makes of its input,
with one condition for an answer and one for an error (`Triple`).
-/

namespace Ondas.Library

universe u v w

/-- A reader of inputs `σ`. -/
def Decoder (σ : Type u) (ε : Type v) (α : Type w) := σ → Except ε α × σ

namespace Decoder

variable {σ : Type u} {ε : Type v} {α β : Type w}

instance : Monad (Decoder σ ε) where
  pure a := fun s => (.ok a, s)
  bind x f := fun s =>
    match x s with
    | (.ok a, s') => f a s'
    | (.error e, s') => (.error e, s')

/-- Fail at the current input. -/
def fail (error : σ → ε) : Decoder σ ε α := fun s => (.error (error s), s)

/-- Read a part of the input state. -/
def look (f : σ → α) : Decoder σ ε α := fun s => (.ok (f s), s)

/-- Read the same thing several times. -/
def times (x : Decoder σ ε α) : Nat → Decoder σ ε (List α)
  | 0 => pure []
  | n + 1 => do
    let a ← x
    let rest ← times x n
    pure (a :: rest)

/-- Read something for each member of a list. -/
def forEach (f : α → Decoder σ ε β) : List α → Decoder σ ε (List β)
  | [] => pure []
  | a :: rest => do
    let b ← f a
    let bs ← forEach f rest
    pure (b :: bs)

@[simp] theorem pure_apply (a : α) (s : σ) : (pure a : Decoder σ ε α) s = (.ok a, s) := rfl

@[simp] theorem fail_apply (error : σ → ε) (s : σ) :
    (fail error : Decoder σ ε α) s = (.error (error s), s) := rfl

@[simp] theorem look_apply (f : σ → α) (s : σ) :
    (look f : Decoder σ ε α) s = (.ok (f s), s) := rfl

section
variable {x : Decoder σ ε α} {f : α → Decoder σ ε β} {s s' : σ} {a : α} {b : β} {e : ε}

/-- What follows a read that succeeds. -/
theorem bind_of_ok (h : x s = (.ok a, s')) : (x >>= f) s = f a s' := by
  show (match x s with | (.ok a, s') => f a s' | (.error e, s') => (.error e, s')) = _
  rw [h]

/-- Nothing follows a read that fails. -/
theorem bind_of_error (h : x s = (.error e, s')) : (x >>= f) s = (.error e, s') := by
  show (match x s with | (.ok a, s') => f a s' | (.error e, s') => (.error e, s')) = _
  rw [h]

/-- What follows a read matters where it succeeds. -/
theorem bind_congr_of_ok {g : α → Decoder σ ε β}
    (h : ∀ a s', x s = (.ok a, s') → f a s' = g a s') : (x >>= f) s = (x >>= g) s := by
  rcases hx : x s with ⟨e | a, s'⟩
  · rw [bind_of_error hx, bind_of_error hx]
  · rw [bind_of_ok hx, bind_of_ok hx, h a s' hx]

/-- A read with an answer leaves some input. -/
theorem exists_ok (h : (x s).1.toOption = some a) : ∃ s', x s = (.ok a, s') := by
  rcases hx : x s with ⟨e | a', s'⟩ <;> rw [hx] at h
  · cases h
  · cases h
    exact ⟨s', rfl⟩

/-- A composition succeeds when both parts do. -/
theorem bind_eq_ok :
    (x >>= f) s = (.ok b, s') ↔ ∃ a t, x s = (.ok a, t) ∧ f a t = (.ok b, s') := by
  constructor
  · intro h
    rcases hx : x s with ⟨e | a, t⟩
    · rw [bind_of_error hx] at h; cases h
    · rw [bind_of_ok hx] at h; exact ⟨a, t, rfl, h⟩
  · rintro ⟨a, t, hx, hf⟩
    rw [bind_of_ok hx, hf]

/-- A composition fails in its first part, or in the second one after it. -/
theorem bind_eq_error :
    (x >>= f) s = (.error e, s') ↔
      x s = (.error e, s') ∨ ∃ a t, x s = (.ok a, t) ∧ f a t = (.error e, s') := by
  constructor
  · intro h
    rcases hx : x s with ⟨e | a, t⟩
    · rw [bind_of_error hx] at h; cases h; exact .inl rfl
    · rw [bind_of_ok hx] at h; exact .inr ⟨a, t, rfl, h⟩
  · rintro (hx | ⟨a, t, hx, hf⟩)
    · rw [bind_of_error hx]
    · rw [bind_of_ok hx, hf]

end

/-- Mapping by the identity changes nothing. -/
theorem id_map_eq (x : Decoder σ ε α) : id <$> x = x := by
  funext s
  show (match x s with | (.ok a, s') => (.ok a, s') | (.error e, s') => (.error e, s')) = x s
  rcases x s with ⟨e | a, s'⟩ <;> rfl

/-- Compositions are associated either way, as each part hands its input on. -/
theorem bind_assoc_eq {γ : Type w} (x : Decoder σ ε α) (f : α → Decoder σ ε β)
    (g : β → Decoder σ ε γ) : x >>= f >>= g = x >>= fun a => f a >>= g := by
  funext s
  rcases hx : x s with ⟨e | a, s'⟩
  · rw [bind_of_error (bind_of_error hx), bind_of_error hx]
  · rcases hf : f a s' with ⟨e | b, s''⟩
    · rw [bind_of_error ((bind_of_ok hx).trans hf), bind_of_ok hx, bind_of_error hf]
    · rw [bind_of_ok ((bind_of_ok hx).trans hf), bind_of_ok hx, bind_of_ok hf]

instance : LawfulMonad (Decoder σ ε) := .mk' _ id_map_eq (fun _ _ => rfl) bind_assoc_eq

/-- A read repeated some times, and some times more. -/
theorem times_append {x : Decoder σ ε α} {m n : Nat} {xs ys : List α} {s s' s'' : σ}
    (hxs : times x m s = (.ok xs, s')) (hys : times x n s' = (.ok ys, s'')) :
    times x (m + n) s = (.ok (xs ++ ys), s'') := by
  induction m generalizing s xs with
  | zero =>
    cases hxs
    rw [Nat.zero_add]
    exact hys
  | succ m ih =>
    obtain ⟨a, t, ha, hrest⟩ := bind_eq_ok.1 hxs
    obtain ⟨as, t', has, hpure⟩ := bind_eq_ok.1 hrest
    cases hpure
    rw [Nat.succ_add]
    exact bind_eq_ok.2 ⟨a, t, ha, bind_eq_ok.2 ⟨as ++ ys, s'', ih has, rfl⟩⟩

/-! ## Related inputs -/

/-- Related inputs give one answer and leave related inputs. -/
def Respects (rel : σ → σ → Prop) (x : Decoder σ ε α) : Prop :=
  ∀ s t, rel s t → (x s).1 = (x t).1 ∧ rel (x s).2 (x t).2

section
variable {rel : σ → σ → Prop} {x y : Decoder σ ε α} {f : α → Decoder σ ε β}

/-- Returning a value respects every relation. -/
theorem Respects.pure (a : α) : Respects rel (Pure.pure a : Decoder σ ε α) :=
  fun _ _ h => ⟨rfl, h⟩

/-- Failing respects a relation that the error does not see through. -/
theorem Respects.fail {error : σ → ε} (herror : ∀ s t, rel s t → error s = error t) :
    Respects rel (fail error : Decoder σ ε α) :=
  fun s t h => ⟨congrArg Except.error (herror s t h), h⟩

/-- Looking at the state respects a relation that keeps what is looked at. -/
theorem Respects.look {g : σ → α} (hg : ∀ s t, rel s t → g s = g t) :
    Respects rel (look g : Decoder σ ε α) :=
  fun s t h => ⟨congrArg Except.ok (hg s t h), h⟩

/-- Two reads one after the other. -/
theorem Respects.bind (hx : Respects rel x) (hf : ∀ a, Respects rel (f a)) :
    Respects rel (x >>= f) := by
  intro s t h
  obtain ⟨hout, hrel⟩ := hx s t h
  rcases hs : x s with ⟨r, s'⟩
  rcases ht : x t with ⟨r', t'⟩
  rw [hs, ht] at hout hrel
  dsimp only at hout hrel
  subst hout
  cases r with
  | error e => rw [bind_of_error hs, bind_of_error ht]; exact ⟨rfl, hrel⟩
  | ok a => rw [bind_of_ok hs, bind_of_ok ht]; exact hf a s' t' hrel

/-- A choice that does not depend on the input. -/
theorem Respects.ite {p : Prop} [Decidable p] (hx : Respects rel x) (hy : Respects rel y) :
    Respects rel (if p then x else y) := by
  split
  · exact hx
  · exact hy

/-- A read repeated. -/
theorem Respects.times (hx : Respects rel x) (n : Nat) : Respects rel (times x n) := by
  induction n with
  | zero => exact .pure _
  | succ n ih => exact hx.bind fun _ => ih.bind fun _ => .pure _

end

/-! ## What answers satisfy -/

/-- Every answer satisfies a predicate. -/
def Ensures (P : α → Prop) (x : Decoder σ ε α) : Prop := ∀ s a s', x s = (.ok a, s') → P a

section
variable {P : α → Prop} {Q : β → Prop} {x y : Decoder σ ε α} {f : α → Decoder σ ε β}

/-- A result that satisfies a predicate is ensured without a read. -/
theorem Ensures.pure {a : α} (h : P a) : Ensures P (Pure.pure a : Decoder σ ε α) := by
  intro s a' s' heq
  cases heq
  exact h

theorem Ensures.fail (error : σ → ε) : Ensures P (fail error : Decoder σ ε α) := by
  intro s a s' heq
  cases heq

theorem Ensures.mono {P' : α → Prop} (hx : Ensures P x) (h : ∀ a, P a → P' a) : Ensures P' x :=
  fun s a s' heq => h a (hx s a s' heq)

/-- Nothing is asked of an answer. -/
theorem Ensures.trivial (x : Decoder σ ε α) : Ensures (fun _ => True) x :=
  fun _ _ _ _ => True.intro

/-- What the first read ensures is known to the second one. -/
theorem Ensures.bind (hx : Ensures P x) (hf : ∀ a, P a → Ensures Q (f a)) :
    Ensures Q (x >>= f) := by
  intro s b s' heq
  obtain ⟨a, t, hrun, hnext⟩ := bind_eq_ok.1 heq
  exact hf a (hx s a t hrun) t b s' hnext

/-- A choice ensures what each branch does under its condition. -/
theorem Ensures.ite {p : Prop} [Decidable p] (hx : p → Ensures P x) (hy : ¬ p → Ensures P y) :
    Ensures P (if p then x else y) := by
  split
  · exact hx ‹p›
  · exact hy ‹¬ p›

/-- A read repeated answers so many members. -/
theorem Ensures.times (hx : Ensures P x) (n : Nat) :
    Ensures (fun xs : List α => xs.length = n ∧ ∀ a ∈ xs, P a) (times x n) := by
  induction n with
  | zero => exact .pure ⟨rfl, nofun⟩
  | succ n ih =>
    refine hx.bind fun a ha => ih.bind fun rest hrest => .pure ⟨by simp [hrest.1], ?_⟩
    intro a' ha'
    rcases List.mem_cons.1 ha' with rfl | ha'
    · exact ha
    · exact hrest.2 a' ha'

/-- A read for each member of a list answers one member for each. -/
theorem Ensures.forEach {R : α → β → Prop} {xs : List α} (hf : ∀ a ∈ xs, Ensures (R a) (f a)) :
    Ensures (List.Forall₂ R xs) (forEach f xs) := by
  induction xs with
  | nil => exact .pure .nil
  | cons a xs ih =>
    refine (hf a (.head _)).bind fun b hb => ?_
    have hrest := ih fun a' ha' => hf a' (.tail _ ha')
    exact hrest.bind fun bs hbs => .pure (.cons hb hbs)

end

/-! ## Conditions before and after -/

/-- From every input that satisfies `P`, an answer and what it leaves satisfy `Q`, and an error and
what it leaves satisfy `E`. -/
def Triple (P : σ → Prop) (x : Decoder σ ε α) (Q : α → σ → Prop) (E : ε → σ → Prop) : Prop :=
  ∀ s, P s → (∀ a s', x s = (.ok a, s') → Q a s') ∧ ∀ e s', x s = (.error e, s') → E e s'

section
variable {P : σ → Prop} {Q : α → σ → Prop} {R : β → σ → Prop} {E : ε → σ → Prop}
  {x : Decoder σ ε α} {f : α → Decoder σ ε β}

/-- A result without a read keeps the input. -/
theorem Triple.pure {a : α} (h : ∀ s, P s → Q a s) :
    Triple P (Pure.pure a : Decoder σ ε α) Q E := by
  intro s hs
  refine ⟨fun a' s' heq => ?_, fun e s' heq => ?_⟩
  · cases heq; exact h s hs
  · cases heq

/-- A look at the input keeps it. -/
theorem Triple.look {g : σ → α} (h : ∀ s, P s → Q (g s) s) :
    Triple P (look g : Decoder σ ε α) Q E := by
  intro s hs
  refine ⟨fun a s' heq => ?_, fun e s' heq => ?_⟩
  · cases heq; exact h s hs
  · cases heq

/-- The condition after the first part is the one before the second. -/
theorem Triple.bind (hx : Triple P x Q E) (hf : ∀ a, Triple (Q a) (f a) R E) :
    Triple P (x >>= f) R E := by
  intro s hs
  obtain ⟨hok, herror⟩ := hx s hs
  refine ⟨fun b s' heq => ?_, fun e s' heq => ?_⟩
  · obtain ⟨a, t, hrun, hnext⟩ := bind_eq_ok.1 heq
    exact (hf a t (hok a t hrun)).1 b s' hnext
  · rcases bind_eq_error.1 heq with hrun | ⟨a, t, hrun, hnext⟩
    · exact herror e s' hrun
    · exact (hf a t (hok a t hrun)).2 e s' hnext

/-- A weaker condition before, stronger ones after. -/
theorem Triple.mono {P' : σ → Prop} {Q' : α → σ → Prop} {E' : ε → σ → Prop}
    (hx : Triple P x Q E) (hP : ∀ s, P' s → P s) (hQ : ∀ a s, Q a s → Q' a s)
    (hE : ∀ e s, E e s → E' e s) : Triple P' x Q' E' := fun s hs =>
  ⟨fun a s' heq => hQ a s' ((hx s (hP s hs)).1 a s' heq),
    fun e s' heq => hE e s' ((hx s (hP s hs)).2 e s' heq)⟩

end

end Decoder

end Ondas.Library
