import Mathlib.Algebra.Order.Ring.Int
import Mathlib.Data.List.Basic
import Mathlib.Data.List.Destutter
import Mathlib.Data.List.Induction
import Mathlib.Data.List.Pairwise

/-!
# Values over ticks

What a history of timed writes says at each tick. Several writes may share a tick, and only the last
one counts: `valueAt` is the last write up to a tick and `entering` the last one before it. A tick
changes a value when a known value enters it and another one leaves it (`changes`), and `changedAt`
is the last such tick.

A program that follows a history keeps a pair of the value and its last change and settles it tick
by tick (`settle`). `entered` and `committed` say what that pair must be before and after a tick:
`committed_settle` and `committed_quiet` take it over one tick, and `entered_eq` from the tick
before. `settleAll` is the special case of one history, settled write by write: a change that the
end of it shows is the last one of the whole (`settleAll_changed`), and what another history leaves
before it is taken in afterwards (`settleAll_known`). The last writes of a history, settled tick by
tick, are its state (`History.committed_finals`).
-/

namespace Ondas.Library

variable {V : Type*}

/-! ## The last write -/

/-- The writes of a history, each with its tick, in the order written. -/
abbrev History (V : Type*) := List (Nat × V)

namespace History

/-- The writes up to a tick. -/
def upTo (h : History V) (t : Nat) : History V := h.filter fun e => decide (e.1 ≤ t)

/-- The writes before a tick. -/
def before (h : History V) (t : Nat) : History V := h.filter fun e => decide (e.1 < t)

/-- The value after a tick: the last write up to it. -/
def valueAt (h : History V) (t : Nat) : Option V := (h.upTo t).getLast?.map Prod.snd

/-- The value that enters a tick: the last write before it. -/
def entering (h : History V) (t : Nat) : Option V := (h.before t).getLast?.map Prod.snd

/-- Time does not go back. -/
def Sorted (h : History V) : Prop := h.Pairwise fun a b => a.1 ≤ b.1

theorem upTo_append (h h' : History V) (t : Nat) : upTo (h ++ h') t = h.upTo t ++ h'.upTo t :=
  List.filter_append ..

theorem before_append (h h' : History V) (t : Nat) :
    before (h ++ h') t = h.before t ++ h'.before t :=
  List.filter_append ..

theorem upTo_all {h : History V} {t : Nat} (hle : ∀ e ∈ h, e.1 ≤ t) : h.upTo t = h :=
  List.filter_eq_self.2 fun e he => by simpa using hle e he

theorem before_all {h : History V} {t : Nat} (hlt : ∀ e ∈ h, e.1 < t) : h.before t = h :=
  List.filter_eq_self.2 fun e he => by simpa using hlt e he

theorem upTo_none {h : History V} {t : Nat} (hlt : ∀ e ∈ h, t < e.1) : h.upTo t = [] :=
  List.filter_eq_nil_iff.2 fun e he => by simpa using hlt e he

theorem before_none {h : History V} {t : Nat} (hle : ∀ e ∈ h, t ≤ e.1) : h.before t = [] :=
  List.filter_eq_nil_iff.2 fun e he => by simpa using hle e he

/-- A known value was written. -/
theorem valueAt_mem {h : History V} {t : Nat} {v : V} (hv : h.valueAt t = some v) :
    ∃ s, (s, v) ∈ h := by
  obtain ⟨e, he, rfl⟩ := Option.map_eq_some_iff.1 hv
  exact ⟨e.1, (List.mem_filter.1 (List.mem_of_getLast? he)).1⟩

/-- A value that enters a tick was written. -/
theorem entering_mem {h : History V} {t : Nat} {v : V} (hv : h.entering t = some v) :
    ∃ s, (s, v) ∈ h := by
  obtain ⟨e, he, rfl⟩ := Option.map_eq_some_iff.1 hv
  exact ⟨e.1, (List.mem_filter.1 (List.mem_of_getLast? he)).1⟩

/-- A write up to a tick makes its value known. -/
theorem valueAt_isSome {h : History V} {t : Nat} {e : Nat × V} (he : e ∈ h) (hle : e.1 ≤ t) :
    (h.valueAt t).isSome = true := by
  have hmem : e ∈ h.upTo t := List.mem_filter.2 ⟨he, by simpa using hle⟩
  rw [valueAt, Option.isSome_map, List.getLast?_isSome]
  exact List.ne_nil_of_mem hmem

/-- A value that enters a tick enters the later ones. -/
theorem entering_isSome_mono {h : History V} {s t : Nat} (hst : s ≤ t)
    (hs : (h.entering s).isSome = true) : (h.entering t).isSome = true := by
  rw [entering, Option.isSome_map, List.getLast?_isSome] at hs ⊢
  obtain ⟨e, he⟩ := List.exists_mem_of_ne_nil _ hs
  obtain ⟨hmem, hlt⟩ := List.mem_filter.1 he
  refine List.ne_nil_of_mem (List.mem_filter.2 ⟨hmem, ?_⟩)
  have : e.1 < s := by simpa using hlt
  simpa using Nat.lt_of_lt_of_le this hst

/-- The same writes are before two ticks: the same value enters them. -/
theorem entering_congr {h : History V} {s t : Nat} (hsame : ∀ e ∈ h, e.1 < t ↔ e.1 < s) :
    h.entering t = h.entering s := by
  have : h.before t = h.before s :=
    List.filter_congr fun e he => by rw [decide_eq_decide]; exact hsame e he
  rw [entering, this, entering]

/-- What leaves a tick enters the next. -/
theorem entering_succ {h : History V} {t : Nat} : h.entering (t + 1) = h.valueAt t := by
  have : h.before (t + 1) = h.upTo t :=
    List.filter_congr fun e _ => by rw [decide_eq_decide]; omega
  rw [entering, this, valueAt]

/-- A tick without a write leaves what entered it. -/
theorem valueAt_quiet {h : History V} {t : Nat} (hquiet : ∀ e ∈ h, e.1 ≠ t) :
    h.valueAt t = h.entering t := by
  have : h.upTo t = h.before t :=
    List.filter_congr fun e he => by have := hquiet e he; rw [decide_eq_decide]; omega
  rw [valueAt, this, entering]

/-- Later writes do not count. -/
theorem valueAt_append_later {h later : History V} {t : Nat} (hlater : ∀ e ∈ later, t < e.1) :
    valueAt (h ++ later) t = h.valueAt t := by
  rw [valueAt, upTo_append, upTo_none hlater, List.append_nil, valueAt]

/-- Writes from a tick on do not enter it. -/
theorem entering_append_later {h later : History V} {t : Nat} (hlater : ∀ e ∈ later, t ≤ e.1) :
    entering (h ++ later) t = h.entering t := by
  rw [entering, before_append, before_none hlater, List.append_nil, entering]

/-- No write between two ticks: what enters the later is what left the earlier. -/
theorem entering_eq {h : History V} {s t : Nat} (hst : s < t)
    (hquiet : ∀ e ∈ h, s < e.1 → t ≤ e.1) : h.entering t = h.valueAt s := by
  have : h.before t = h.upTo s := by
    refine List.filter_congr fun e he => ?_
    have := hquiet e he
    simp only [decide_eq_decide]
    omega
  rw [entering, this, valueAt]

/-- The writes after a tick are the end of a history. -/
theorem Sorted.after {h : History V} (hsorted : h.Sorted) (s : Nat) :
    ∃ first, h = first ++ h.filter fun e => decide (s < e.1) := by
  induction h with
  | nil => exact ⟨[], rfl⟩
  | cons e h ih =>
    obtain ⟨hhead, htail⟩ := List.pairwise_cons.1 hsorted
    by_cases hlt : s < e.1
    · have hall : (e :: h).filter (fun e => decide (s < e.1)) = e :: h := by
        refine List.filter_eq_self.2 fun e' he' => ?_
        rcases List.mem_cons.1 he' with rfl | he'
        · simpa using hlt
        · simpa using Nat.lt_of_lt_of_le hlt (hhead e' he')
      exact ⟨[], by rw [hall]; rfl⟩
    · obtain ⟨first, hfirst⟩ := ih htail
      refine ⟨e :: first, ?_⟩
      rw [List.filter_cons_of_neg (by simpa using hlt), List.cons_append, ← hfirst]

/-- The value after a tick of an appended write. -/
theorem valueAt_concat {h : History V} {t : Nat} {v : V} (hle : ∀ e ∈ h, e.1 ≤ t) :
    valueAt (h ++ [(t, v)]) t = some v := by
  rw [valueAt, upTo_append, upTo_all hle, upTo_all (by simp)]
  simp

end History

/-! ## Changes -/

section
variable [DecidableEq V]

/-- A tick changes a value: a known value enters and another one leaves. -/
def changes : Option V → Option V → Bool
  | some v, some w => decide (v ≠ w)
  | _, _ => false

/-- The last tick with some property; `ticks` are in order. -/
def lastTick (ticks : List Nat) (p : Nat → Bool) : Option Nat := (ticks.filter p).getLast?

/-- The last tick up to `t` that changes the value. -/
def changedAt (ticks : List Nat) (entering value : Nat → Option V) (t : Nat) : Option Nat :=
  lastTick ticks fun τ => decide (τ ≤ t) && changes (entering τ) (value τ)

/-- The value after a tick, with its last change. -/
def committed (ticks : List Nat) (entering value : Nat → Option V) (t : Nat) :
    Option (V × Option Nat) :=
  (value t).map fun v => (v, changedAt ticks entering value t)

/-- The value that enters a tick, with its last change. -/
def entered (ticks : List Nat) (entering value : Nat → Option V) (t : Nat) :
    Option (V × Option Nat) :=
  (entering t).map fun v =>
    (v, lastTick ticks fun τ => decide (τ < t) && changes (entering τ) (value τ))

/-- Settle a tick that leaves a value: a different known value changes at the tick. -/
def settle (t : Nat) (v : V) : Option (V × Option Nat) → Option (V × Option Nat)
  | none => some (v, none)
  | some (w, changed) => if w = v then some (w, changed) else some (v, some t)

@[simp] theorem changes_self (v : Option V) : changes v v = false := by
  cases v <;> simp [changes]

theorem changes_none (w : Option V) : changes none w = false := by cases w <;> rfl

/-- An injection keeps changes. -/
theorem changes_map {U : Type*} [DecidableEq U] {f : V → U} (hf : Function.Injective f)
    (v w : Option V) : changes (v.map f) (w.map f) = changes v w := by
  cases v with
  | none => rw [Option.map_none, changes_none, changes_none]
  | some v =>
    cases w with
    | none => rfl
    | some w => simp [changes, hf.eq_iff]

/-- The same ticks have the property. -/
theorem lastTick_congr {ticks : List Nat} {p q : Nat → Bool} (h : ∀ τ ∈ ticks, p τ = q τ) :
    lastTick ticks p = lastTick ticks q := by
  unfold lastTick
  rw [List.filter_congr h]

/-- No tick has the property. -/
theorem lastTick_none {ticks : List Nat} {p : Nat → Bool} (h : ∀ τ ∈ ticks, p τ = false) :
    lastTick ticks p = none := by
  unfold lastTick
  rw [List.filter_eq_nil_iff.2 fun τ hτ => by simp [h τ hτ]]
  rfl

/-- Ticks without the property do not count. -/
theorem lastTick_append_of_false {ticks more : List Nat} {p : Nat → Bool}
    (h : ∀ τ ∈ more, p τ = false) : lastTick (ticks ++ more) p = lastTick ticks p := by
  have hmore : more.filter p = [] := List.filter_eq_nil_iff.2 fun τ hτ => by simp [h τ hτ]
  rw [lastTick, List.filter_append, hmore, List.append_nil, lastTick]

/-- A tick with the property after which no tick has it is the last. -/
theorem lastTick_eq {ticks : List Nat} {p : Nat → Bool} {t : Nat}
    (hsorted : ticks.Pairwise (· ≤ ·)) (hmem : t ∈ ticks) (hp : p t = true)
    (hlast : ∀ τ ∈ ticks, p τ = true → τ ≤ t) : lastTick ticks p = some t := by
  unfold lastTick
  have hin : t ∈ ticks.filter p := List.mem_filter.2 ⟨hmem, hp⟩
  have hne : ticks.filter p ≠ [] := List.ne_nil_of_mem hin
  rw [List.getLast?_eq_some_getLast hne]
  obtain ⟨hmem', hp'⟩ := List.mem_filter.1 (List.getLast_mem hne)
  have hge : t ≤ (ticks.filter p).getLast hne :=
    (hsorted.sublist List.filter_sublist).rel_getLast hin
  exact congrArg some (Nat.le_antisymm (hlast _ hmem' hp') hge)

/-- Ticks without the property can be left out. -/
theorem lastTick_sublist {ticks ticks' : List Nat} {p : Nat → Bool} (hsub : ticks'.Sublist ticks)
    (hsorted : ticks.Pairwise (· ≤ ·)) (h : ∀ τ ∈ ticks, p τ = true → τ ∈ ticks') :
    lastTick ticks' p = lastTick ticks p := by
  by_cases hnil : ticks.filter p = []
  · have hnone : ∀ τ ∈ ticks, p τ = false := fun τ hτ => by
      simpa using List.filter_eq_nil_iff.1 hnil τ hτ
    rw [lastTick_none hnone, lastTick_none fun τ hτ => hnone τ (hsub.subset hτ)]
  · obtain ⟨hmem, hp⟩ := List.mem_filter.1 (List.getLast_mem hnil)
    have hlast : ∀ τ ∈ ticks, p τ = true → τ ≤ (ticks.filter p).getLast hnil := fun τ hτ hp =>
      (hsorted.sublist List.filter_sublist).rel_getLast (List.mem_filter.2 ⟨hτ, hp⟩)
    rw [lastTick_eq hsorted hmem hp hlast, lastTick_eq (hsorted.sublist hsub) (h _ hmem hp) hp
      fun τ hτ => hlast τ (hsub.subset hτ)]

variable {ticks : List Nat} {entering value : Nat → Option V}

/-- What an injection makes of a value changes when the value does. -/
theorem committed_map {U : Type*} [DecidableEq U] {f : V → U} (hf : Function.Injective f)
    {entering' value' : Nat → Option U} (hentering : ∀ τ, entering' τ = (entering τ).map f)
    (hvalue : ∀ τ, value' τ = (value τ).map f) (t : Nat) :
    committed ticks entering' value' t =
      (committed ticks entering value t).map fun e => (f e.1, e.2) := by
  have hchanged : changedAt ticks entering' value' t = changedAt ticks entering value t := by
    unfold changedAt
    refine lastTick_congr fun τ _ => ?_
    rw [hentering, hvalue, changes_map hf]
  unfold committed
  rw [hchanged, hvalue, Option.map_map, Option.map_map]
  rfl

/-- Between two ticks nothing changes. -/
theorem entered_eq {s t : Nat} (hst : s < t) (hvalue : entering t = value s)
    (hquiet : ∀ τ ∈ ticks, s < τ → τ < t → changes (entering τ) (value τ) = false) :
    entered ticks entering value t = committed ticks entering value s := by
  unfold entered committed changedAt
  rw [hvalue]
  congr 1
  funext v
  congr 1
  refine lastTick_congr fun τ hτ => ?_
  by_cases hle : τ ≤ s
  · simp [hle, Nat.lt_of_le_of_lt hle hst]
  · by_cases hlt : τ < t
    · simp [hle, hlt, hquiet τ hτ (by omega) hlt]
    · simp [hle, hlt]

/-- A tick that leaves what entered it commits what entered it. -/
theorem committed_quiet {t : Nat} (hvalue : value t = entering t) :
    committed ticks entering value t = entered ticks entering value t := by
  unfold entered committed changedAt
  rw [hvalue]
  congr 1
  funext v
  congr 1
  refine lastTick_congr fun τ _ => ?_
  by_cases heq : τ = t
  · subst heq
    simp [hvalue]
  · have : decide (τ ≤ t) = decide (τ < t) := by
      rw [decide_eq_decide]; omega
    rw [this]

/-- A recorded tick that leaves a value settles what entered it. -/
theorem committed_settle {t : Nat} {v : V} (hsorted : ticks.Pairwise (· ≤ ·)) (hmem : t ∈ ticks)
    (hvalue : value t = some v)
    (hknown : entering t = none → ∀ τ ∈ ticks, τ < t → entering τ = none) :
    committed ticks entering value t = settle t v (entered ticks entering value t) := by
  cases hentering : entering t with
  | none =>
    have hnone : changedAt ticks entering value t = none := by
      refine lastTick_none fun τ hτ => ?_
      by_cases hlt : τ < t
      · rw [hknown hentering τ hτ hlt, changes_none, Bool.and_false]
      · by_cases heq : τ = t
        · rw [heq, hentering, changes_none, Bool.and_false]
        · simp [show ¬ τ ≤ t by omega]
    simp only [committed, entered, hvalue, hentering, hnone, Option.map_none, Option.map_some,
      settle]
  | some w =>
    by_cases hw : w = v
    · rw [committed_quiet (by rw [hvalue, hentering, hw])]
      simp only [entered, hentering, Option.map_some, settle, hw, if_true]
    · have hself : changedAt ticks entering value t = some t := by
        refine lastTick_eq hsorted hmem (by simp [changes, hentering, hvalue, hw]) ?_
        intro τ _ hτ
        simp only [Bool.and_eq_true, decide_eq_true_eq] at hτ
        exact hτ.1
      simp only [committed, entered, hvalue, hentering, hself, Option.map_some, settle,
        hw, if_false]

/-! ### Writes settled one after the other -/

/-- Settle the writes of a history, from the state before it. -/
def settleAll (h : History V) (state : Option (V × Option Nat)) : Option (V × Option Nat) :=
  h.foldl (fun state e => settle e.1 e.2 state) state

theorem settleAll_append (h h' : History V) (state : Option (V × Option Nat)) :
    settleAll (h ++ h') state = settleAll h' (settleAll h state) :=
  List.foldl_append

/-- Settled writes keep what holds of their values. -/
theorem settleAll_forall {P : V → Prop} {h : History V} (hwrites : ∀ e ∈ h, P e.2)
    {state : Option (V × Option Nat)} (hstate : ∀ e, state = some e → P e.1) :
    ∀ e, settleAll h state = some e → P e.1 := by
  induction h generalizing state with
  | nil => exact hstate
  | cons write h ih =>
    refine ih (fun e he => hwrites e (List.mem_cons_of_mem _ he)) fun e he => ?_
    have hwrite := hwrites write List.mem_cons_self
    cases state with
    | none => cases he; exact hwrite
    | some entry =>
      have hentry := hstate entry rfl
      dsimp only [settle] at he
      split at he
      · cases he; exact hentry
      · cases he; exact hwrite

/-- Two runs over the same writes: once the first has a value the second has it too, and a change of
the first is one of the second. -/
def Follows : Option (V × Option Nat) → Option (V × Option Nat) → Prop
  | none, _ => True
  | some (v, changed), later => ∃ changed', later = some (v, changed') ∧
      ∀ t, changed = some t → changed' = some t

/-- A write keeps the second run behind the first. -/
theorem Follows.settle {state later : Option (V × Option Nat)} (h : Follows state later) (t : Nat)
    (v : V) : Follows (settle t v state) (settle t v later) := by
  cases state with
  | none =>
    rcases later with - | ⟨w, changed⟩
    · exact ⟨none, rfl, nofun⟩
    · by_cases hw : w = v
      · exact ⟨changed, by simp [Library.settle, hw], nofun⟩
      · exact ⟨some t, by simp only [Library.settle, if_neg hw], nofun⟩
  | some entry =>
    obtain ⟨w, changed⟩ := entry
    obtain ⟨changed', rfl, hchanged⟩ := h
    by_cases hw : w = v
    · simp only [Library.settle, if_pos hw]
      exact ⟨changed', rfl, hchanged⟩
    · simp only [Library.settle, if_neg hw]
      exact ⟨some t, rfl, fun s hs => hs⟩

/-- **A change seen is the last one.** Writes that change a value, settled from nothing, leave the
value and the last change that they leave after anything before them. -/
theorem settleAll_changed {h : History V} {v : V} {t : Nat}
    (hend : settleAll h none = some (v, some t)) (state : Option (V × Option Nat)) :
    settleAll h state = some (v, some t) := by
  have hfollows : ∀ (h : History V) {state later}, Follows state later →
      Follows (settleAll h state) (settleAll h later) := by
    intro h
    induction h with
    | nil => exact fun h => h
    | cons e h ih => exact fun hstate => ih (hstate.settle e.1 e.2)
  have hlast := hfollows h (show Follows none state from trivial)
  rw [hend] at hlast
  obtain ⟨changed', hlater, hchanged⟩ := hlast
  rw [hlater, hchanged t rfl]

/-- From a known value a history ends as from nothing. When nothing changes after its first write,
the last change is that of its first write, if that differs, or the one before. -/
theorem settleAll_known {first : Nat × V} {h : History V} {v : V} {changed : Option Nat}
    (hend : settleAll (first :: h) none = some (v, changed)) (w : V) (before : Option Nat) :
    settleAll (first :: h) (some (w, before)) =
      some (v, changed.or (if w = first.2 then before else some first.1)) := by
  have hfrom : ∀ (h : History V) (x : V) (c d : Option Nat),
      settleAll h (some (x, c)) = some (v, changed) →
      settleAll h (some (x, c.or d)) = some (v, changed.or d) := by
    intro h
    induction h with
    | nil =>
      intro x c d heq
      cases heq
      rfl
    | cons e h ih =>
      intro x c d heq
      have hstep : ∀ state, settleAll (e :: h) state = settleAll h (settle e.1 e.2 state) :=
        fun _ => rfl
      rw [hstep] at heq ⊢
      by_cases hx : x = e.2
      · rw [settle, if_pos hx] at heq ⊢
        exact ih _ _ _ heq
      · rw [settle, if_neg hx] at heq ⊢
        exact ih _ _ d heq
  have hnone : settleAll h (some (first.2, none)) = some (v, changed) := hend
  have hknown := hfrom h first.2 none (if w = first.2 then before else some first.1) hnone
  rw [Option.none_or] at hknown
  rw [← hknown]
  show settleAll h (settle first.1 first.2 (some (w, before))) = _
  congr 1
  by_cases hw : w = first.2
  · rw [settle, if_pos hw, if_pos hw, hw]
  · rw [settle, if_neg hw, if_neg hw]

end

/-! ## What is kept of increasing ticks -/

section
variable {C : Type*} {ticks : List Nat} {keep : Nat → Option C}

/-- The ticks up to an end, of those that are kept, are the first part of what is kept. -/
theorem takeWhile_kept {time : C → Nat} (hincreasing : ticks.Pairwise (· < ·))
    (htime : ∀ τ c, keep τ = some c → time c = τ) (t : Nat) :
    (ticks.filterMap keep).takeWhile (fun c => decide (time c ≤ t)) =
      (ticks.filter fun τ => decide (τ ≤ t)).filterMap keep := by
  induction ticks with
  | nil => rfl
  | cons τ ticks ih =>
    obtain ⟨hlater, hrest⟩ := List.pairwise_cons.1 hincreasing
    by_cases hτ : τ ≤ t
    · rw [List.filter_cons_of_pos (by simpa using hτ)]
      cases hkeep : keep τ with
      | none => rw [List.filterMap_cons_none hkeep, List.filterMap_cons_none hkeep, ih hrest]
      | some c =>
        rw [List.filterMap_cons_some hkeep, List.filterMap_cons_some hkeep,
          List.takeWhile_cons_of_pos (by simpa [htime τ c hkeep] using hτ), ih hrest]
    · have hge : ∀ τ' ∈ τ :: ticks, t < τ' := by
        intro τ' hτ'
        rcases List.mem_cons.1 hτ' with rfl | hτ'
        · exact Nat.not_le.1 hτ
        · exact Nat.lt_trans (Nat.not_le.1 hτ) (hlater τ' hτ')
      rw [show ((τ :: ticks).filter fun τ => decide (τ ≤ t)) = [] from
        List.filter_eq_nil_iff.2 fun τ' hτ' => by simpa using hge τ' hτ']
      cases hkept : (τ :: ticks).filterMap keep with
      | nil => rfl
      | cons c rest =>
        obtain ⟨τ', hτ', hkeep⟩ := List.mem_filterMap.1
          (show c ∈ (τ :: ticks).filterMap keep by rw [hkept]; simp)
        rw [List.takeWhile_cons_of_neg (by simpa [htime τ' c hkeep] using hge τ' hτ')]
        rfl

/-- The last thing kept comes from the last tick that keeps something, and it is the only one when
no tick before keeps anything. -/
theorem kept_last (hincreasing : ticks.Pairwise (· < ·)) :
    (ticks.filterMap keep = [] ∧ ∀ τ ∈ ticks, keep τ = none) ∨
    ∃ before τ c, ticks.filterMap keep = before ++ [c] ∧ τ ∈ ticks ∧ keep τ = some c ∧
      (∀ τ' ∈ ticks, τ < τ' → keep τ' = none) ∧
      (before = [] → ∀ τ' ∈ ticks, τ' < τ → keep τ' = none) ∧
      (before ≠ [] → ∃ τ' ∈ ticks, τ' < τ ∧ (keep τ').isSome = true) := by
  induction ticks using List.reverseRecOn with
  | nil => exact .inl ⟨rfl, nofun⟩
  | append_singleton ticks t ih =>
    obtain ⟨hrest, -, hlater⟩ := List.pairwise_append.1 hincreasing
    have hlt : ∀ τ ∈ ticks, τ < t := fun τ hτ => hlater τ hτ t (by simp)
    rw [List.filterMap_append]
    cases hkeep : keep t with
    | some c =>
      refine .inr ⟨ticks.filterMap keep, t, c, by simp [hkeep], by simp, hkeep, ?_, ?_, ?_⟩
      · intro τ' hτ' hafter
        rcases List.mem_append.1 hτ' with hτ' | hτ'
        · exact absurd (hlt τ' hτ') (by omega)
        · rw [List.mem_singleton.1 hτ'] at hafter; omega
      · intro hnil τ' hτ' hbefore
        rcases List.mem_append.1 hτ' with hτ' | hτ'
        · exact List.filterMap_eq_nil_iff.1 hnil τ' hτ'
        · rw [List.mem_singleton.1 hτ'] at hbefore; omega
      · intro hne
        obtain ⟨c', hc'⟩ := List.exists_mem_of_ne_nil _ hne
        obtain ⟨τ', hτ', hsome⟩ := List.mem_filterMap.1 hc'
        exact ⟨τ', List.mem_append_left _ hτ', hlt τ' hτ', by rw [hsome]; rfl⟩
    | none =>
      rw [show [t].filterMap keep = [] by simp [hkeep], List.append_nil]
      rcases ih hrest with ⟨hnil, hnone⟩ | ⟨before, τ, c, hkept, hτ, hc, hafter, hfirst, hmore⟩
      · refine .inl ⟨hnil, fun τ' hτ' => ?_⟩
        rcases List.mem_append.1 hτ' with hτ' | hτ'
        · exact hnone τ' hτ'
        · rw [List.mem_singleton.1 hτ', hkeep]
      · refine .inr ⟨before, τ, c, hkept, List.mem_append_left _ hτ, hc, ?_, ?_, ?_⟩
        · intro τ' hτ' hlt'
          rcases List.mem_append.1 hτ' with hτ' | hτ'
          · exact hafter τ' hτ' hlt'
          · rw [List.mem_singleton.1 hτ', hkeep]
        · intro hnil τ' hτ' hlt'
          rcases List.mem_append.1 hτ' with hτ' | hτ'
          · exact hfirst hnil τ' hτ' hlt'
          · rw [List.mem_singleton.1 hτ', hkeep]
        · intro hne
          obtain ⟨τ', hτ', hlt', hsome⟩ := hmore hne
          exact ⟨τ', List.mem_append_left _ hτ', hlt', hsome⟩

end

/-! ## One history, folded over its ticks -/

namespace History

/-- The last write of each tick. -/
def finals : History V → History V
  | [] => []
  | [e] => [e]
  | e :: e' :: rest => if e.1 = e'.1 then finals (e' :: rest) else e :: finals (e' :: rest)

/-- The last writes are writes. -/
theorem finals_sublist (h : History V) : (finals h).Sublist h := by
  induction h with
  | nil => exact .slnil
  | cons e h ih =>
    cases h with
    | nil => exact .refl _
    | cons e' h =>
      rw [finals]
      split
      · exact ih.cons e
      · exact ih.cons_cons e

/-- A write after a history: it replaces the writes of its own tick. -/
theorem finals_concat {h : History V} {t : Nat} {v : V} (hsorted : h.Sorted)
    (hle : ∀ e ∈ h, e.1 ≤ t) : finals (h ++ [(t, v)]) = finals (h.before t) ++ [(t, v)] := by
  induction h with
  | nil => rfl
  | cons e h ih =>
    obtain ⟨hhead, htail⟩ := List.pairwise_cons.1 hsorted
    have hle' : ∀ e' ∈ h, e'.1 ≤ t := fun e' he' => hle e' (List.mem_cons_of_mem _ he')
    specialize ih htail hle'
    by_cases het : e.1 < t
    · have hcons : before (e :: h) t = e :: before h t :=
        List.filter_cons_of_pos (by simpa using het)
      rw [hcons]
      cases h with
      | nil =>
        have hne : e.1 ≠ t := Nat.ne_of_lt het
        simp [finals, before, hne]
      | cons e' rest =>
        rw [List.cons_append, List.cons_append]
        simp only [finals]
        rw [← List.cons_append, ih]
        by_cases heq : e.1 = e'.1
        · have hpos : e'.1 < t := heq ▸ het
          have hcons' : before (e' :: rest) t = e' :: before rest t :=
            List.filter_cons_of_pos (by simpa using hpos)
          rw [if_pos heq, hcons']
          simp only [finals]
          rw [if_pos heq]
        · rw [if_neg heq]
          by_cases hpos : e'.1 < t
          · have hcons' : before (e' :: rest) t = e' :: before rest t :=
              List.filter_cons_of_pos (by simpa using hpos)
            rw [hcons']
            simp only [finals]
            rw [if_neg heq, List.cons_append]
          · have hnil : before (e' :: rest) t = [] := by
              refine before_none fun x hx => ?_
              rcases List.mem_cons.1 hx with rfl | hx
              · omega
              · have := (List.pairwise_cons.1 htail).1 x hx
                omega
            rw [hnil]
            rfl
    · have hall : ∀ x ∈ e :: h, t ≤ x.1 := by
        intro x hx
        rcases List.mem_cons.1 hx with rfl | hx
        · omega
        · have := hhead x hx
          omega
      rw [before_none hall]
      rw [before_none fun x hx => hall x (List.mem_cons_of_mem _ hx)] at ih
      cases h with
      | nil =>
        have heq : e.1 = t := by
          have := hle e (by simp)
          omega
        simp [finals, heq]
      | cons e' rest =>
        have heq : e.1 = e'.1 := by
          have h1 := hall e' (by simp)
          have h2 := hle' e' (by simp)
          have h3 := hle e (by simp)
          omega
        rw [List.cons_append, List.cons_append]
        simp only [finals]
        rw [if_pos heq, ← List.cons_append]
        exact ih

/-- The first tick keeps a write. -/
theorem finals_head (h : History V) : (finals h).head?.map Prod.fst = h.head?.map Prod.fst := by
  induction h with
  | nil => rfl
  | cons e h ih =>
    cases h with
    | nil => rfl
    | cons e' h =>
      rw [finals]
      split
      · next heq => rw [ih, List.head?_cons, List.head?_cons, Option.map_some, Option.map_some, heq]
      · rfl

/-- A write is replaced when the first one that is kept after it is of its tick. -/
theorem finals_cons (e : Nat × V) (h : History V) :
    finals (e :: h) =
      if some e.1 = (finals h).head?.map Prod.fst then finals h else e :: finals h := by
  rw [finals_head]
  cases h with
  | nil => rfl
  | cons e' h => simp only [finals, List.head?_cons, Option.map_some, Option.some.injEq]

/-- Only the last writes of what follows count. -/
theorem finals_append_congr (h : History V) {r r' : History V} (heq : finals r = finals r') :
    finals (h ++ r) = finals (h ++ r') := by
  induction h with
  | nil => exact heq
  | cons e h ih => rw [List.cons_append, List.cons_append, finals_cons, finals_cons, ih]

/-- A tick keeps a write when it has one. -/
theorem exists_mem_finals {h : History V} {t : Nat} :
    (∃ v, (t, v) ∈ finals h) ↔ ∃ v, (t, v) ∈ h := by
  refine ⟨fun ⟨v, hv⟩ => ⟨v, (finals_sublist h).subset hv⟩, ?_⟩
  induction h with
  | nil => exact fun ⟨v, hv⟩ => nomatch hv
  | cons e h ih =>
    rintro ⟨v, hv⟩
    rw [finals_cons]
    split
    · next hsome =>
      rcases List.mem_cons.1 hv with rfl | hv
      · obtain ⟨⟨t', v'⟩, hhead, rfl⟩ := Option.map_eq_some_iff.1 hsome.symm
        exact ⟨v', List.mem_of_mem_head? hhead⟩
      · exact ih ⟨v, hv⟩
    · rcases List.mem_cons.1 hv with rfl | hv
      · exact ⟨v, .head _⟩
      · obtain ⟨v', hv'⟩ := ih ⟨v, hv⟩
        exact ⟨v', .tail _ hv'⟩

/-- Histories one after another have the last writes of both. -/
theorem finals_append {h h' : History V} (hlt : ∀ e ∈ h, ∀ e' ∈ h', e.1 < e'.1) :
    finals (h ++ h') = finals h ++ finals h' := by
  induction h with
  | nil => rfl
  | cons e h ih =>
    have hrest := ih fun x hx => hlt x (List.mem_cons_of_mem _ hx)
    cases h with
    | nil =>
      cases h' with
      | nil => rfl
      | cons e' h' =>
        have hne : e.1 ≠ e'.1 := (hlt e (.head _) e' (.head _)).ne
        simp only [List.cons_append, List.nil_append, finals, if_neg hne]
    | cons e₁ h =>
      simp only [List.cons_append, finals] at hrest ⊢
      split
      · exact hrest
      · rw [hrest, List.cons_append]

section
variable [DecidableEq V] {ticks : List Nat}

/-- What enters a tick is what the writes before it leave. -/
theorem entered_before (h : History V) (t : Nat) :
    entered ticks h.entering h.valueAt t =
      committed ticks (h.before t).entering (h.before t).valueAt t := by
  have hlt : ∀ e ∈ h.before t, e.1 < t := fun e he => of_decide_eq_true (List.mem_filter.1 he).2
  have hvalue : (h.before t).valueAt t = h.entering t := by
    rw [valueAt, upTo_all fun e he => (hlt e he).le]
    rfl
  unfold entered committed changedAt
  rw [hvalue]
  congr 1
  funext v
  congr 1
  refine lastTick_congr fun τ _ => ?_
  rcases lt_trichotomy τ t with hτ | rfl | hτ
  · have hup : (h.before t).upTo τ = h.upTo τ := by
      rw [upTo, before, List.filter_filter]
      exact List.filter_congr fun e _ => by rw [← Bool.decide_and, decide_eq_decide]; omega
    have hbefore : (h.before t).before τ = h.before τ := by
      rw [before, before, List.filter_filter]
      exact List.filter_congr fun e _ => by rw [← Bool.decide_and, decide_eq_decide]; omega
    simp only [valueAt, entering, hup, hbefore, hτ, hτ.le]
  · rw [valueAt_quiet fun e he => (hlt e he).ne, changes_self]
    simp
  · simp [hτ.not_gt, hτ.not_ge]

/-- The state of a history at its end: its last writes, settled tick by tick. -/
theorem committed_finals {h : History V} {t : Nat} (hsorted : h.Sorted) (hle : ∀ e ∈ h, e.1 ≤ t)
    (hticks : ticks.Pairwise (· ≤ ·)) (hmem : ∀ e ∈ h, e.1 ∈ ticks) :
    committed ticks h.entering h.valueAt t = settleAll h.finals none := by
  induction hn : h.length using Nat.strongRecOn generalizing h t with
  | ind n ih =>
    rcases List.eq_nil_or_concat' h with rfl | ⟨first, ⟨s, v⟩, rfl⟩
    · rfl
    obtain ⟨hfirst, -, hlast⟩ := List.pairwise_append.1 hsorted
    have hlast' : ∀ e ∈ first, e.1 ≤ s := fun e he => hlast e he (s, v) (.head _)
    have hend : ∀ e ∈ first ++ [(s, v)], e.1 ≤ s := by
      intro e he
      rcases List.mem_append.1 he with he | he
      · exact hlast' e he
      · rw [List.mem_singleton.1 he]
    have hst : s < t + 1 := Nat.lt_succ_of_le (hle (s, v) (by simp))
    -- After the last write nothing changes.
    have hat : committed ticks (entering (first ++ [(s, v)])) (valueAt (first ++ [(s, v)])) t =
        committed ticks (entering (first ++ [(s, v)])) (valueAt (first ++ [(s, v)])) s := by
      rw [← entered_eq (Nat.lt_succ_self t) entering_succ fun τ _ h1 h2 => by omega]
      refine entered_eq hst (entering_eq hst fun e he hlt => ?_) fun τ _ hlt _ => ?_
      · exact absurd hlt (hend e he).not_gt
      · rw [valueAt_quiet fun e he => ((hend e he).trans_lt hlt).ne, changes_self]
    have hbefore : before (first ++ [(s, v)]) s = before first s := by
      rw [before_append, before_none (h := [(s, v)]) (by simp), List.append_nil]
    have hshorter : (before first s).length < n := by
      rw [← hn, List.length_append, List.length_singleton]
      exact Nat.lt_succ_of_le (List.length_filter_le _ _)
    have hsub : ∀ e ∈ before first s, e ∈ first := fun e he => (List.mem_filter.1 he).1
    have hprevious : committed ticks (before first s).entering (before first s).valueAt s =
        settleAll (finals (before first s)) none :=
      ih _ hshorter (hfirst.sublist List.filter_sublist) (fun e he => hlast' e (hsub e he))
        (fun e he => hmem e (List.mem_append_left _ (hsub e he))) rfl
    rw [hat, committed_settle hticks (hmem (s, v) (by simp)) (valueAt_concat hlast'),
      entered_before,
      hbefore, hprevious, finals_concat hfirst hlast', settleAll_append]
    · rfl
    · intro hnone τ _ hτ
      by_contra hsome
      have := entering_isSome_mono hτ.le (Option.isSome_iff_ne_none.2 hsome)
      rw [hnone] at this
      cases this

end

end History

/-! ## Ticks without repetitions -/

/-- Dropping the repetitions of ticks in order leaves each tick once. -/
theorem destutter_increasing {ts : List Nat} (h : ts.Pairwise (· ≤ ·)) :
    (ts.destutter (· ≠ ·)).Pairwise (· < ·) := by
  rw [h.destutter_eq_dedup]
  have hle := h.sublist (List.dedup_sublist ts)
  have hne : ts.dedup.Pairwise (· ≠ ·) := List.nodup_dedup ts
  exact (hle.and hne).imp fun hab => Nat.lt_of_le_of_ne hab.1 hab.2

/-- Dropping the repetitions of ticks in order drops no tick. -/
theorem mem_destutter {ts : List Nat} (h : ts.Pairwise (· ≤ ·)) {t : Nat} :
    t ∈ ts.destutter (· ≠ ·) ↔ t ∈ ts := by
  rw [h.destutter_eq_dedup, List.mem_dedup]

/-- The first tick stays first. -/
theorem destutter'_eq_cons (t : Nat) (ts : List Nat) :
    ts.destutter' (· ≠ ·) t = t :: (ts.destutter' (· ≠ ·) t).tail := by
  induction ts with
  | nil => rfl
  | cons τ ts ih =>
    by_cases hne : t ≠ τ
    · rw [List.destutter'_cons_pos _ hne]
      rfl
    · rw [List.destutter'_cons_neg _ hne]
      exact ih

/-- Ticks without repetitions, after a tick. -/
def following (last : Option Nat) (ts : List Nat) : List Nat :=
  match last with
  | none => ts.destutter (· ≠ ·)
  | some t => (ts.destutter' (· ≠ ·) t).tail

theorem following_same (t : Nat) (ts : List Nat) :
    following (some t) (t :: ts) = following (some t) ts :=
  congrArg List.tail (List.destutter'_cons_neg ts fun h => h rfl)

/-- A tick that differs from the last one is not dropped. -/
theorem following_new {last : Option Nat} {t : Nat} (h : last ≠ some t) (ts : List Nat) :
    following last (t :: ts) = t :: following (some t) ts := by
  unfold following
  cases last with
  | none => exact destutter'_eq_cons t ts
  | some t' =>
    have hne : t' ≠ t := fun heq => h (by rw [heq])
    exact (congrArg List.tail (List.destutter'_cons_pos ts hne)).trans (destutter'_eq_cons t ts)

end Ondas.Library
