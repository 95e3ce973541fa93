import Ondas.Query.Plan
import Ondas.Query.Registry

/-!
# The planner

What `Plan.new` computes, stated without its fuel: the planning loop ends (`planAll_ends`), the
retained handles are the selected ones with everything they depend on (`Reachable`), and the tables
of the plan describe them exactly (`planner_correct`). A turn of the loop costs a part of what its
handle was expected to cost (`load_turn`), and keeps the small facts about the tables
(`Planning.Tidy`) that the invariant of `Ondas.Query.Plan` does not mention.
-/

namespace Ondas.Query

open Library

/-- A handle that the value of another one depends on, or the handle itself. -/
inductive Reachable (w : Waveform) (signal : Signal) : Signal → Prop
  | refl : Reachable w signal signal
  | operand {s t : Signal} : Reachable w signal s → s.computed = true → t ∈ operands w s →
      Reachable w signal t

/-! ## The loop without fuel -/

/-- The planning loop over its stack. -/
inductive Expands (w : Waveform) :
    Planning → List (Signal × Bool) → Except Error Planning → Prop
  | done {p} : Expands w p [] (.ok p)
  | fail {p signal expanded pending e} : expandStep w p signal expanded pending = .error e →
      Expands w p ((signal, expanded) :: pending) (.error e)
  | turn {p p' signal expanded pending pending' result} :
      expandStep w p signal expanded pending = .ok (p', pending') → Expands w p' pending' result →
      Expands w p ((signal, expanded) :: pending) result

/-- The loop over the selected handles. -/
inductive Selects (w : Waveform) : Planning → List Signal → Except Error Planning → Prop
  | done {p} : Selects w p [] (.ok p)
  | fail {p signal rest e} : Expands w p [(signal, false)] (.error e) →
      Selects w p (signal :: rest) (.error e)
  | next {p p' signal rest result} : Expands w p [(signal, false)] (.ok p') →
      Selects w (p'.enter signal) rest result → Selects w p (signal :: rest) result

/-- A bound on the turns of a stack: a handle met again takes one. -/
def load (w : Waveform) (pending : List (Signal × Bool)) : Nat :=
  (pending.map fun entry => if entry.2 then 1 else w.cost entry.1).sum

section
variable {w : Waveform} {p p' : Planning} {signal : Signal}
    {pending pending' : List (Signal × Bool)}

/-- A handle costs at least one turn. -/
theorem Waveform.cost_pos (w : Waveform) (signal : Signal) : 0 < w.cost signal := by
  cases hc : signal.computed with
  | false =>
    rw [Waveform.cost, Waveform.evaluate_source hc]
    simp [hc]
  | true =>
    rcases Nat.lt_or_ge signal.index w.definitions.length with hlt | hge
    · rw [Waveform.cost, Waveform.evaluate_computed hc hlt]
      split <;> omega
    · rw [Waveform.cost, Waveform.evaluate, operand, if_pos hc, table_getElem?,
        List.getElem?_eq_none hge]
      simp only [Option.map_none, Option.getD_none]
      split <;> omega

/-- What a turn of the loop does: it drops a known handle, puts the operands of a new computed one
before it, or gives the handle its slot. -/
theorem expandStep_cases {expanded : Bool}
    (h : expandStep w p signal expanded pending = .ok (p', pending')) :
    (p' = p ∧ pending' = pending) ∨
    (p' = p ∧ expanded = false ∧ signal.computed = true ∧ w.admit signal = .ok () ∧
      pending' = (operands w signal).map (·, false) ++ (signal, true) :: pending) ∨
    ((expanded = false → w.admit signal = .ok ()) ∧ p' = p.retain w signal ∧
      pending' = pending) := by
  unfold expandStep at h
  split at h
  · cases h
    exact .inl ⟨rfl, rfl⟩
  split at h
  · cases h
  next hadmits =>
  split at h
  next hc =>
    cases h
    simp only [Bool.and_eq_true, Bool.not_eq_true'] at hc
    rw [hc.2, if_neg (by decide)] at hadmits
    exact .inr (.inl ⟨rfl, hc.2, hc.1, hadmits, rfl⟩)
  next =>
    cases h
    exact .inr (.inr ⟨fun hexpanded => by rwa [hexpanded, if_neg (by decide)] at hadmits, rfl, rfl⟩)

/-- A turn leaves less to do. -/
theorem load_turn {expanded : Bool}
    (h : expandStep w p signal expanded pending = .ok (p', pending')) :
    load w pending' < load w ((signal, expanded) :: pending) := by
  have hpos : 0 < if expanded then 1 else w.cost signal := by
    split
    · exact Nat.one_pos
    · exact w.cost_pos signal
  have hload : load w ((signal, expanded) :: pending) =
      (if expanded then 1 else w.cost signal) + load w pending := by
    rw [load, List.map_cons, List.sum_cons, load]
  rcases expandStep_cases h with ⟨-, rfl⟩ | ⟨-, rfl, hc, hadmits, rfl⟩ | ⟨-, -, rfl⟩
  · omega
  · have hcost := (Waveform.admit_ok.1 hadmits).1.cost_operands hc
    have hmap : load w ((operands w signal).map (·, false) ++ (signal, true) :: pending) =
        ((operands w signal).map w.cost).sum + (1 + load w pending) := by
      simp [load, Function.comp_def]
    rw [hmap, hload, if_neg (by decide)]
    omega
  · omega

/-- With fuel for its load the loop ends. -/
theorem expand_ends {fuel : Nat} (h : load w pending < fuel) :
    Expands w p pending (expand w fuel p pending) := by
  induction fuel generalizing p pending with
  | zero => exact absurd h (Nat.not_lt_zero _)
  | succ fuel ih =>
    match pending with
    | [] => exact .done
    | (signal, expanded) :: pending =>
      unfold expand
      split
      next e he => exact .fail he
      next p' pending' hturn =>
        exact .turn hturn (ih (Nat.lt_of_lt_of_le (load_turn hturn) (Nat.le_of_lt_succ h)))

/-- The planner ends. -/
theorem planAll_ends (signals : List Signal) : Selects w p signals (planAll w p signals) := by
  induction signals generalizing p with
  | nil => exact .done
  | cons signal signals ih =>
    have hload : load w [(signal, false)] < w.cost signal + 1 := by simp [load]
    have hends := expand_ends (p := p) hload
    unfold planAll
    split
    next e he => exact .fail (he ▸ hends)
    next p' hp' => exact .next (hp' ▸ hends) ih

end

/-! ## The tables -/

/-- What the retained handles are, and what the tables say of the histories and of the widths. -/
structure Planning.Tidy (w : Waveform) (R : Signal → Prop) (p : Planning) : Prop where
  reached : ∀ s ∈ p.plan.retained, R s
  admitted : ∀ s ∈ p.plan.retained, w.admit s = .ok ()
  groups : ∀ base, (p.plan.groups base).isSome = true ↔ base ∈ p.plan.bases.map Signal.index
  bases : (p.plan.bases.map Signal.index).Nodup
  widths : ∀ slot inputs width, .concat slot inputs width ∈ p.plan.computations →
    ∃ s, p.plan.retained[slot]? = some s ∧ width = s.width.getD 0

section
variable {w : Waveform} {R : Signal → Prop} {p q : Planning} {signal : Signal}

/-- The empty planning is tidy. -/
theorem Planning.empty_tidy : Planning.empty.Tidy w R := by
  refine ⟨nofun, nofun, fun base => ?_, ?_, nofun⟩
  · simp [Planning.empty]
  · simp [Planning.empty]

theorem Planning.Tidy.enter (h : p.Tidy w R) (signal : Signal) : (p.enter signal).Tidy w R :=
  ⟨h.reached, h.admitted, h.groups, h.bases, h.widths⟩

/-- A handle gets its slot. -/
theorem Planning.Tidy.retain (h : p.Tidy w R) (hR : R signal) (hadmits : w.admit signal = .ok ()) :
    (p.retain w signal).Tidy w R := by
  have hmem : ∀ {Q : Signal → Prop}, (∀ s ∈ p.plan.retained, Q s) → Q signal →
      ∀ s ∈ (p.retain w signal).plan.retained, Q s := by
    intro Q hold hnew s hs
    rw [retain_retained] at hs
    rcases List.mem_append.1 hs with hs | hs
    · exact hold s hs
    · rw [List.mem_singleton.1 hs]
      exact hnew
  have hwidths : ∀ slot inputs width, .concat slot inputs width ∈ p.plan.computations →
      ∃ s, (p.retain w signal).plan.retained[slot]? = some s ∧ width = s.width.getD 0 := by
    intro slot inputs width hconcat
    obtain ⟨s, hs, hwidth⟩ := h.widths slot inputs width hconcat
    exact ⟨s, retain_extends.slot hs, hwidth⟩
  cases hc : signal.computed with
  | true =>
    have hplan : (p.retain w signal).plan =
        { p.plan with
          retained := p.plan.retained ++ [signal]
          computations := p.plan.computations ++
            [computation w (p.retain w signal).known p.plan.retained.length signal] } := by
      simp [Planning.retain, hc]
    refine ⟨hmem h.reached hR, hmem h.admitted hadmits, ?_, ?_, fun slot inputs width hconcat => ?_⟩
    · rw [hplan]; exact h.groups
    · rw [hplan]; exact h.bases
    · rw [hplan] at hconcat
      rcases List.mem_append.1 hconcat with hconcat | hconcat
      · exact hwidths slot inputs width hconcat
      · have heq := List.mem_singleton.1 hconcat
        unfold computation at heq
        split at heq
        · cases heq
        · cases heq
          exact ⟨signal, by rw [retain_retained, List.getElem?_concat_length], rfl⟩
  | false =>
    have hplan : (p.retain w signal).plan =
        { p.plan with
          retained := p.plan.retained ++ [signal]
          bases := if (p.plan.groups signal.index).isNone then p.plan.bases ++ [signal.base]
            else p.plan.bases
          groups := fun i =>
            if i = signal.index then some (p.plan.entries signal.index ++ [p.plan.retained.length])
            else p.plan.groups i } := by
      simp [Planning.retain, hc, Plan.entries]
    refine ⟨hmem h.reached hR, hmem h.admitted hadmits, fun base => ?_, ?_,
      fun slot inputs width hconcat => ?_⟩
    · rw [hplan]
      have hbase := h.groups base
      dsimp only
      split
      next heq =>
        subst heq
        split
        · simp [Signal.base]
        next hsome => simpa using hbase.1 (by simpa [Option.isSome_iff_ne_none] using hsome)
      next hne =>
        rw [hbase]
        split
        · simp [Signal.base, hne]
        · rfl
    · rw [hplan]
      dsimp only
      split
      next hnone =>
        have hnew : signal.index ∉ p.plan.bases.map Signal.index := fun hold => by
          rw [← h.groups, Option.isNone_iff_eq_none.1 hnone] at hold
          cases hold
        rw [List.map_append, List.map_singleton]
        refine List.Nodup.append h.bases (List.nodup_singleton _) ?_
        rw [List.disjoint_singleton]
        exact hnew
      next => exact h.bases
    · rw [hplan] at hconcat
      exact hwidths slot inputs width hconcat

/-- The loop keeps the tables in order. -/
theorem Expands.tidy {pending : List (Signal × Bool)} {result : Except Error Planning}
    (hclosed : ∀ s t, R s → s.computed = true → t ∈ operands w s → R t)
    (h : Expands w p pending result) (hp : p.Tidy w R)
    (hpending : ∀ entry ∈ pending, R entry.1 ∧ (entry.2 = true → w.admit entry.1 = .ok ()))
    (hresult : result = .ok q) : q.Tidy w R := by
  induction h with
  | done => cases hresult; exact hp
  | fail => cases hresult
  | @turn p p' signal expanded pending pending' result hturn _ ih =>
    obtain ⟨hR, hexpanded⟩ := hpending _ (.head _)
    have hrest : ∀ entry ∈ pending, R entry.1 ∧ (entry.2 = true → w.admit entry.1 = .ok ()) :=
      fun entry hentry => hpending entry (.tail _ hentry)
    rcases expandStep_cases hturn with ⟨rfl, rfl⟩ | ⟨rfl, -, hc, hadmits, rfl⟩ | ⟨hadmits, rfl, rfl⟩
    · exact ih hp hrest hresult
    · refine ih hp (fun entry hentry => ?_) hresult
      rcases List.mem_append.1 hentry with hentry | hentry
      · obtain ⟨t, ht, rfl⟩ := List.mem_map.1 hentry
        exact ⟨hclosed signal t hR hc ht, nofun⟩
      · rcases List.mem_cons.1 hentry with rfl | hentry
        · exact ⟨hR, fun _ => hadmits⟩
        · exact hrest entry hentry
    · refine ih (hp.retain hR ?_) hrest hresult
      cases expanded with
      | true => exact hexpanded rfl
      | false => exact hadmits rfl

/-- The planner keeps the tables in order. -/
theorem Selects.tidy {signals : List Signal} {result : Except Error Planning}
    (hclosed : ∀ s t, R s → s.computed = true → t ∈ operands w s → R t)
    (h : Selects w p signals result) (hp : p.Tidy w R) (hsignals : ∀ s ∈ signals, R s)
    (hresult : result = .ok q) : q.Tidy w R := by
  induction h with
  | done => cases hresult; exact hp
  | fail => cases hresult
  | @next p p' signal rest result hexpands _ ih =>
    refine ih (Planning.Tidy.enter (hexpands.tidy hclosed hp (fun entry hentry => ?_) rfl) signal)
      (fun s hs => hsignals s (.tail _ hs)) hresult
    rw [List.mem_singleton.1 hentry]
    exact ⟨hsignals signal (.head _), nofun⟩

end

/-! ## The computed slots -/

/-- The slot a computation fills. -/
def Computation.slot : Computation → Nat
  | .concat slot _ _ => slot
  | .slice slot _ _ => slot

/-- The slots a computation reads. -/
def Computation.inputs : Computation → List Nat
  | .concat _ inputs _ => inputs.map Prod.fst
  | .slice _ input _ => [input]

/-- The slots of computed handles, in order. -/
def computedSlots (slots : List Signal) : List Nat :=
  (List.range slots.length).filter fun slot => (slots[slot]?.map Signal.computed).getD false

section
variable {w : Waveform} {slots : List Signal} {computations : List Computation}

/-- A computed handle that is retained adds a computed slot. -/
theorem computedSlots_concat (slots : List Signal) (signal : Signal) :
    computedSlots (slots ++ [signal]) =
      computedSlots slots ++ if signal.computed then [slots.length] else [] := by
  have hold : ∀ slot ∈ List.range slots.length,
      (((slots ++ [signal])[slot]?).map Signal.computed).getD false =
        (slots[slot]?.map Signal.computed).getD false := by
    intro slot hslot
    rw [List.getElem?_append_left (List.mem_range.1 hslot)]
  rw [computedSlots, List.length_append, List.length_singleton, List.range_succ,
    List.filter_append, List.filter_congr hold, computedSlots, List.filter_singleton,
    List.getElem?_concat_length]
  cases hc : signal.computed <;> simp [hc]

/-- There is one computation for each computed handle. -/
theorem Computes.slots_eq (h : Computes w slots computations) :
    computations.map Computation.slot = computedSlots slots := by
  induction h with
  | nil => rfl
  | source _ hc ih => rw [computedSlots_concat, hc, ih]; simp
  | slice _ hc _ _ ih => rw [computedSlots_concat, hc, List.map_append, ih]; rfl
  | concat _ hc _ _ ih => rw [computedSlots_concat, hc, List.map_append, ih]; rfl

/-- The computed slots are those of computed handles. -/
theorem mem_computedSlots {slot : Nat} :
    slot ∈ computedSlots slots ↔ ∃ s, slots[slot]? = some s ∧ s.computed = true := by
  unfold computedSlots
  rw [List.mem_filter, List.mem_range]
  constructor
  · rintro ⟨hlt, hc⟩
    rw [List.getElem?_eq_getElem hlt] at hc
    exact ⟨_, List.getElem?_eq_getElem hlt, hc⟩
  · rintro ⟨s, hs, hc⟩
    exact ⟨(List.getElem?_eq_some_iff.1 hs).1, by rw [hs]; exact hc⟩

theorem computedSlots_increasing (slots : List Signal) :
    (computedSlots slots).Pairwise (· < ·) :=
  List.pairwise_lt_range.filter _

/-- What a computation is: it reads, in order, the slots of the operands of its handle, which are
before its own. -/
structure Computation.Of (w : Waveform) (slots : List Signal) (c : Computation) (s : Signal) :
    Prop where
  slot : slots[c.slot]? = some s
  computed : s.computed = true
  earlier : ∀ input ∈ c.inputs, input < c.slot
  inputs : c.inputs.map (fun input => slots[input]?) = (operands w s).map some
  slice : ∀ slot input signal, c = .slice slot input signal → s.isSlice = true ∧ signal = s
  concat : ∀ slot inputs width, c = .concat slot inputs width → s.isSlice = false ∧
    inputs.map Prod.snd = (w.compositionParts s).map fun part => part.width.getD 0

/-- A computation is of the same handle when slots are added. -/
theorem Computation.Of.append {c : Computation} {s : Signal} (h : c.Of w slots s)
    (signal : Signal) : c.Of w (slots ++ [signal]) s := by
  refine ⟨getElem?_append_of_some h.slot, h.computed, h.earlier, ?_, h.slice, h.concat⟩
  rw [← h.inputs]
  refine List.map_congr_left fun input hinput => ?_
  have hslot := (List.getElem?_eq_some_iff.1 h.slot).1
  rw [List.getElem?_append_left (by have := h.earlier input hinput; omega)]

/-- The inputs of a composition are the slots and the widths of its parts. -/
theorem inputs_of_forall₂ {parts : List Signal} {inputs : List (Nat × Nat)}
    (h : List.Forall₂
      (fun part input => slots[input.1]? = some part ∧ input.2 = part.width.getD 0) parts inputs) :
    (∀ input ∈ inputs, input.1 < slots.length) ∧
      inputs.map (fun input => slots[input.1]?) = parts.map some ∧
      inputs.map Prod.snd = parts.map fun part => part.width.getD 0 := by
  induction h with
  | nil => exact ⟨nofun, rfl, rfl⟩
  | cons hpart _ ih =>
    obtain ⟨hlt, hslots, hwidths⟩ := ih
    refine ⟨fun input hinput => ?_, ?_, ?_⟩
    · rcases List.mem_cons.1 hinput with rfl | hinput
      · exact (List.getElem?_eq_some_iff.1 hpart.1).1
      · exact hlt input hinput
    · rw [List.map_cons, List.map_cons, hpart.1, hslots]
    · rw [List.map_cons, List.map_cons, hpart.2, hwidths]

/-- Every computation is of a retained handle. -/
theorem Computes.of (h : Computes w slots computations) :
    ∀ c ∈ computations, ∃ s, c.Of w slots s := by
  induction h with
  | nil => nofun
  | @source slots computations signal _ _ ih =>
    intro c hc
    obtain ⟨s, hs⟩ := ih c hc
    exact ⟨s, hs.append signal⟩
  | @slice slots computations signal input _ hcomputed hslice hinput ih =>
    intro c hc
    rcases List.mem_append.1 hc with hc | hc
    · obtain ⟨s, hs⟩ := ih c hc
      exact ⟨s, hs.append signal⟩
    · rw [List.mem_singleton.1 hc]
      have hlt := (List.getElem?_eq_some_iff.1 hinput).1
      refine ⟨signal, List.getElem?_concat_length, hcomputed, fun i hi => ?_, ?_,
        fun slot i s heq => ?_, fun slot inputs width heq => (by cases heq)⟩
      · rw [List.mem_singleton.1 hi]
        exact hlt
      · rw [operands, hslice, if_pos rfl, Computation.inputs, List.map_singleton,
          List.map_singleton,
          getElem?_append_of_some hinput]
      · cases heq
        exact ⟨hslice, rfl⟩
  | @concat slots computations signal inputs width _ hcomputed hslice hinputs ih =>
    intro c hc
    rcases List.mem_append.1 hc with hc | hc
    · obtain ⟨s, hs⟩ := ih c hc
      exact ⟨s, hs.append signal⟩
    · rw [List.mem_singleton.1 hc]
      obtain ⟨hlt, hslots, hwidths⟩ := inputs_of_forall₂ hinputs
      refine ⟨signal, List.getElem?_concat_length, hcomputed, fun i hi => ?_, ?_,
        fun slot i s heq => (by cases heq), fun slot inputs width heq => ?_⟩
      · obtain ⟨input, hinput, rfl⟩ := List.mem_map.1 hi
        exact hlt input hinput
      · rw [operands, hslice, if_neg (by decide), ← hslots, Computation.inputs, List.map_map]
        exact List.map_congr_left fun input hinput =>
          List.getElem?_append_left (hlt input hinput)
      · cases heq
        exact ⟨hslice, hwidths⟩

end

/-! ## The plan -/

section
variable {w : Waveform} {p : Planning}

/-- No handle has two slots. -/
theorem Planning.Sound.nodup (h : p.Sound w) : p.plan.retained.Nodup := by
  rw [List.nodup_iff_getElem?_ne_getElem?]
  intro i j hij hj heq
  have hget := List.getElem?_eq_getElem hj
  have hi := (h.known _ i).2 (heq.trans hget)
  rw [(h.known _ j).2 hget] at hi
  cases hi
  exact lt_irrefl _ hij

/-- The operands of a retained handle are retained. -/
theorem Plan.Fits.closed {plan : Plan} (h : plan.Fits w) {s t : Signal} (hs : s ∈ plan.retained)
    (hc : s.computed = true) (ht : t ∈ operands w s) : t ∈ plan.retained := by
  obtain ⟨slot, hslot⟩ := List.getElem?_of_mem hs
  have hmem := mem_computedSlots.2 ⟨s, hslot, hc⟩
  rw [← h.computes.slots_eq] at hmem
  obtain ⟨c, hcomputation, rfl⟩ := List.mem_map.1 hmem
  obtain ⟨s', hof⟩ := h.computes.of c hcomputation
  have hsame := hof.slot
  rw [hslot] at hsame
  cases hsame
  have hmem := List.mem_map_of_mem (f := some) ht
  rw [← hof.inputs] at hmem
  obtain ⟨input, -, hinput⟩ := List.mem_map.1 hmem
  exact List.mem_of_getElem? hinput

/-- What a retained handle depends on is retained. -/
theorem Plan.Fits.reachable {plan : Plan} (h : plan.Fits w) {s t : Signal}
    (hs : s ∈ plan.retained) (ht : Reachable w s t) : t ∈ plan.retained := by
  induction ht with
  | refl => exact hs
  | operand _ hc ht ih => exact h.closed ih hc ht

/-- A valid source handle of an index has one base. -/
theorem base_eq {s t : Signal} (hs : w.Valid s) (ht : w.Valid t) (hsc : s.computed = false)
    (htc : t.computed = false) (h : s.index = t.index) : s.base = t.base := by
  obtain ⟨-, hssource, hsencoding, -⟩ := validateEncoding_ok hs
  obtain ⟨-, htsource, htencoding, -⟩ := validateEncoding_ok ht
  rw [encodingOf, hsc, if_neg (by decide), h] at hsencoding
  rw [encodingOf, htc, if_neg (by decide), hsencoding, Option.some.injEq] at htencoding
  simp [Signal.base, hssource, htsource, htencoding, hsc, htc, h]

/-- The width of a whole composition, when those of the definitions are the sums of their parts. -/
theorem composition_width (hwidths : ∀ d ∈ w.definitions, d.width = totalWidth d.parts)
    {s : Signal} (h : w.Valid s) (hc : s.computed = true) (hslice : s.isSlice = false) :
    s.width = some (totalWidth (w.compositionParts s)) := by
  have hencoding := (validateEncoding_ok h).2.2.1
  rw [encodingOf, if_pos hc] at hencoding
  obtain ⟨d, hd, hwidth⟩ := Option.map_eq_some_iff.1 hencoding
  have hwhole : s = s.base := by simpa [Signal.isSlice] using hslice
  have hsame : s.encoding = s.baseEncoding := congrArg Signal.encoding hwhole
  rw [Signal.width, hsame, ← hwidth, Waveform.compositionParts, hd, Option.map_some,
    Option.getD_some, hwidths d (List.mem_of_getElem? hd)]

/-- **The planner.** Planning ends, and fails exactly when something that a selected handle depends
on is invalid or unsupported. A plan has a slot for each handle that is selected or depended on, and
one only; an entry of the selection points to the slot of its handle; the histories are those of the
source handles, each once, with the slots it feeds; and each computed slot has one computation,
which reads the slots of its operands in order, all of them filled before. -/
theorem planner_correct {w : Waveform}
    (hwidths : ∀ d ∈ w.definitions, d.width = totalWidth d.parts) (signals : List Signal) :
    Selects w .empty signals (planAll w .empty signals) ∧
    Plan.new w signals = (planAll w .empty signals).map Planning.plan ∧
    ((∃ e, Plan.new w signals = .error e) ↔
      ∃ s ∈ signals, ∃ t, Reachable w s t ∧ ¬(w.Valid t ∧ t.encoding ≠ .unsupported)) ∧
    ∀ plan, Plan.new w signals = .ok plan →
      plan.indices.map (fun slot => plan.retained[slot]?) = signals.map some ∧
      plan.retained.Nodup ∧
      (∀ t, t ∈ plan.retained ↔ ∃ s ∈ signals, Reachable w s t) ∧
      (plan.bases.map Signal.index).Nodup ∧
      (∀ b, b ∈ plan.bases ↔ ∃ s ∈ plan.retained, s.computed = false ∧ b = s.base) ∧
      (∀ base, (plan.groups base).isSome = true ↔ base ∈ plan.bases.map Signal.index) ∧
      (∀ base slot, slot ∈ plan.entries base ↔
        ∃ s, plan.retained[slot]? = some s ∧ s.computed = false ∧ s.index = base) ∧
      (∀ base, (plan.entries base).Nodup) ∧
      plan.computations.map Computation.slot = computedSlots plan.retained ∧
      ∀ (i : Nat) (c : Computation), plan.computations[i]? = some c →
        ∃ s, c.Of w plan.retained s ∧
        (∀ input ∈ c.inputs, (∃ t, plan.retained[input]? = some t ∧ t.computed = false) ∨
          ∃ j < i, plan.computations[j]?.map Computation.slot = some input) ∧
        ∀ slot inputs width, c = .concat slot inputs width →
          s.width = some width ∧ (inputs.map Prod.snd).sum = width := by
  have hends := planAll_ends (w := w) (p := .empty) signals
  have hnew : Plan.new w signals = (planAll w .empty signals).map Planning.plan := by
    unfold Plan.new
    cases planAll w .empty signals <;> rfl
  -- A plan that is made comes from a sound planning, whose tables are in order.
  have hmade : ∀ plan, Plan.new w signals = .ok plan → ∃ p : Planning, p.plan = plan ∧ p.Sound w ∧
      p.Tidy w fun t => ∃ s ∈ signals, Reachable w s t := by
    intro plan hplan
    cases hp : planAll w .empty signals with
    | error e => rw [hnew, hp] at hplan; cases hplan
    | ok p =>
      rw [hnew, hp] at hplan
      cases hplan
      refine ⟨p, rfl, (planAll_sound [] (Planning.empty_sound w) rfl hp).1,
        hends.tidy (fun s t hs hc ht => ?_) Planning.empty_tidy (fun s hs => ⟨s, hs, .refl⟩) hp⟩
      obtain ⟨s', hs', hreach⟩ := hs
      exact ⟨s', hs', hreach.operand hc ht⟩
  have hretained : ∀ plan, Plan.new w signals = .ok plan →
      ∀ t, t ∈ plan.retained ↔ ∃ s ∈ signals, Reachable w s t := by
    intro plan hplan t
    obtain ⟨p, rfl, hsound, htidy⟩ := hmade plan hplan
    refine ⟨htidy.reached t, fun ⟨s, hs, hreach⟩ => ?_⟩
    have hmem := List.mem_map_of_mem (f := some) hs
    rw [← (Plan.new_plans hplan).indices] at hmem
    obtain ⟨slot, -, hslot⟩ := List.mem_map.1 hmem
    exact hsound.toFits.reachable (List.mem_of_getElem? hslot) hreach
  refine ⟨hends, hnew, ⟨fun ⟨e, he⟩ => ?_, fun ⟨s, hs, t, hreach, hbad⟩ => ?_⟩,
    fun plan hplan => ?_⟩
  · obtain ⟨s, hs, hadmits⟩ := Plan.new_error he
    refine ⟨s, hs, s, .refl, fun hgood => ?_⟩
    rw [Waveform.admit_ok.2 hgood] at hadmits
    cases hadmits
  · cases hplan : Plan.new w signals with
    | error e => exact ⟨e, rfl⟩
    | ok plan =>
      have hmem := (hretained plan hplan t).2 ⟨s, hs, hreach⟩
      obtain ⟨p, rfl, -, htidy⟩ := hmade plan hplan
      exact absurd (Waveform.admit_ok.1 (htidy.admitted t hmem)) hbad
  · obtain ⟨p, rfl, hsound, htidy⟩ := hmade plan hplan
    have hslots := hsound.computes.slots_eq
    have hincreasing := computedSlots_increasing p.plan.retained
    refine ⟨(Plan.new_plans hplan).indices, hsound.nodup, hretained _ hplan, htidy.bases,
      fun b => ⟨hsound.sources b, fun ⟨s, hs, hc, hb⟩ => ?_⟩, htidy.groups, hsound.entries,
      hsound.entries_nodup, hslots, fun i c hi => ?_⟩
    · -- The history of the handle is read, by the base that was met first.
      obtain ⟨slot, hslot⟩ := List.getElem?_of_mem hs
      have hentry : slot ∈ p.plan.entries s.index := (hsound.entries _ _).2 ⟨s, hslot, hc, rfl⟩
      have hsome : (p.plan.groups s.index).isSome = true := by
        unfold Plan.entries at hentry
        cases hgroup : p.plan.groups s.index with
        | none => rw [hgroup] at hentry; cases hentry
        | some slots => rfl
      obtain ⟨b', hb', hindex⟩ := List.mem_map.1 ((htidy.groups _).1 hsome)
      obtain ⟨t, ht, htc, rfl⟩ := hsound.sources b' hb'
      rw [hb, base_eq (hsound.valid s hs) (hsound.valid t ht) hc htc hindex.symm]
      exact hb'
    · have hmem := List.mem_of_getElem? hi
      obtain ⟨s, hof⟩ := hsound.computes.of c hmem
      refine ⟨s, hof, fun input hinput => ?_, fun slot inputs width heq => ?_⟩
      · have hlt := hof.earlier input hinput
        have hslot : input < p.plan.retained.length :=
          hlt.trans (List.getElem?_eq_some_iff.1 hof.slot).1
        have hget := List.getElem?_eq_getElem hslot
        cases hc : (p.plan.retained[input]).computed with
        | false => exact .inl ⟨_, hget, hc⟩
        | true =>
          have hmem := mem_computedSlots.2 ⟨_, hget, hc⟩
          obtain ⟨j, hj⟩ := List.getElem?_of_mem hmem
          rw [← hslots, List.getElem?_map] at hj
          refine .inr ⟨j, ?_, hj⟩
          -- The slots of the computations increase.
          by_contra hge
          obtain ⟨c', hc', hslot'⟩ := Option.map_eq_some_iff.1 hj
          rcases Nat.eq_or_lt_of_le (Nat.le_of_not_lt hge) with rfl | hij
          · rw [hi] at hc'
            cases hc'
            omega
          · rw [← hslots, List.pairwise_map] at hincreasing
            obtain ⟨hilt, higet⟩ := List.getElem?_eq_some_iff.1 hi
            obtain ⟨hjlt, hjget⟩ := List.getElem?_eq_some_iff.1 hc'
            have horder := List.pairwise_iff_getElem.1 hincreasing i j hilt hjlt hij
            rw [higet, hjget] at horder
            omega
      · obtain ⟨hslice, hinputs⟩ := hof.concat slot inputs width heq
        obtain ⟨s', hs', hwidth⟩ := htidy.widths slot inputs width (heq ▸ hmem)
        have hslot := hof.slot
        rw [heq] at hslot
        rw [show (Computation.concat slot inputs width).slot = slot from rfl, hs'] at hslot
        cases hslot
        have htotal := composition_width hwidths (hsound.valid _ (List.mem_of_getElem? hs'))
          hof.computed hslice
        rw [htotal, Option.getD_some] at hwidth
        rw [htotal, hinputs, hwidth]
        exact ⟨rfl, rfl⟩

end

/-- Two slices of a source history, composed, and a slice of the composition, which is selected
before it. The plan fills the slots of the two slices first, then the composition and last its
slice, and the entries of the selection point back to them. -/
theorem planner_correct_slices :
    let high : Signal := ⟨1, 0, false, .bits 8, .bits 4, 4⟩
    let low : Signal := ⟨1, 0, false, .bits 8, .bits 4, 0⟩
    let bus : Signal := ⟨1, 0, true, .bits 8, .bits 8, 0⟩
    let part : Signal := ⟨1, 0, true, .bits 8, .bits 4, 2⟩
    let w : Waveform := ⟨1, [.bits 8], [⟨[low, high], 8⟩], none, by
      intro i d hd part hpart
      match i with
      | 0 =>
        cases hd
        have hbits : part.encoding = .bits 4 := by
          simp only [List.mem_cons, List.not_mem_nil, or_false] at hpart
          rcases hpart with rfl | rfl <;> rfl
        refine ⟨?_, 4, hbits⟩
        simp only [List.mem_cons, List.not_mem_nil, or_false] at hpart
        rcases hpart with rfl | rfl <;> decide
      | i + 1 => cases hd⟩
    Selects w .empty [part, bus] (planAll w .empty [part, bus]) ∧
    ∃ plan, Plan.new w [part, bus] = .ok plan ∧
      plan.retained = [low, high, bus, part] ∧ plan.indices = [3, 2] ∧
      plan.computations = [.concat 2 [(0, 4), (1, 4)] 8, .slice 3 2 part] ∧
      (∀ slot, slot ∈ plan.entries 0 ↔
        ∃ s, plan.retained[slot]? = some s ∧ s.computed = false ∧ s.index = 0) ∧
      plan.computations.map Computation.slot = computedSlots plan.retained := by
  intro high low bus part w
  obtain ⟨hends, -, -, hplan⟩ := planner_correct (w := w) (fun d hd => by
    rw [List.mem_singleton.1 hd]
    rfl) [part, bus]
  have hmade : (Plan.new w [part, bus]).map (fun plan =>
      (plan.retained, plan.indices, plan.computations)) = .ok ([low, high, bus, part], [3, 2],
        [.concat 2 [(0, 4), (1, 4)] 8, .slice 3 2 part]) := by decide +kernel
  cases hnew : Plan.new w [part, bus] with
  | error e =>
    rw [hnew] at hmade
    cases hmade
  | ok plan =>
    rw [hnew] at hmade
    simp only [Except.map, Except.ok.injEq, Prod.mk.injEq] at hmade
    obtain ⟨-, -, -, -, -, -, hentries, -, hslots, -⟩ := hplan plan hnew
    exact ⟨hends, plan, rfl, hmade.1, hmade.2.1, hmade.2.2, hentries 0, hslots⟩

end Ondas.Query
