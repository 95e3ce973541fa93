import Ondas.Query.Reference

/-!
# The plan of a selection

`Plan.new` gives every selected handle a slot, and a slot to every handle its value depends on: the
whole composition under a slice, and the parts of a composition. It walks the dependencies with an
explicit stack, a handle before its operands the first time it is met and after them the second
time, so a slot's operands have smaller numbers.

`Plan.Plans` is what the traversal of a stream needs of the plan, and `Plan.new_plans` says that
planning delivers it. The loop is followed one handle at a time (`expand_reaches`), by induction on
the compositions: from a stack with a handle on top it reaches the rest of the stack with the handle
in a slot. That also bounds the steps, so the fuel is enough.
-/

namespace Ondas.Query

open Library

/-- How a computed slot is filled at the end of a tick. -/
inductive Computation where
  | concat (slot : Nat) (inputs : List (Nat × Nat)) (width : Nat)
  | slice (slot input : Nat) (signal : Signal)
  deriving DecidableEq, Repr

/-- The slots of a selection: the handle of each slot, the slot of each selection entry, the source
histories to read with the slots each one feeds, and the computed slots. -/
structure Plan where
  retained : List Signal
  indices : List Nat
  bases : List Signal
  groups : Nat → Option (List Nat)
  computations : List Computation

/-- A plan under construction, with the slot of each handle met. -/
structure Planning where
  plan : Plan
  known : Signal → Option Nat

/-- The slots a source history feeds. -/
def Plan.entries (plan : Plan) (base : Nat) : List Nat := (plan.groups base).getD []

/-- The empty plan. -/
def Planning.empty : Planning :=
  { plan := {
      retained := [], indices := [], bases := [], groups := fun _ => none, computations := [] }
    known := fun _ => none }

/-- The checks of a handle met for the first time. -/
def Waveform.admit (w : Waveform) (signal : Signal) : Except Error Unit :=
  match validate w.source w.encodings w.definitions signal with
  | .error e => .error e
  | .ok _ =>
    if signal.encoding = .unsupported then .error (.unsupportedSignal signal) else .ok ()

/-- The computation of a computed handle, from the slots of its operands. -/
def computation (w : Waveform) (known : Signal → Option Nat) (slot : Nat) (signal : Signal) :
    Computation :=
  if signal.isSlice then .slice slot ((known signal.base).getD 0) signal
  else
    .concat slot
      ((w.compositionParts signal).map fun part => ((known part).getD 0, part.width.getD 0))
      (signal.width.getD 0)

/-- Give a handle the next slot. -/
def Planning.retain (w : Waveform) (p : Planning) (signal : Signal) : Planning :=
  let slot := p.plan.retained.length
  let known := fun s => if s = signal then some slot else p.known s
  let plan := { p.plan with retained := p.plan.retained ++ [signal] }
  if signal.computed then
    { known := known
      plan := { plan with computations := plan.computations ++ [computation w known slot signal] } }
  else
    let bases := if (plan.groups signal.index).isNone then plan.bases ++
      [signal.base] else plan.bases
    let groups := fun i =>
      if i = signal.index then some (plan.entries signal.index ++ [slot]) else plan.groups i
    { known := known, plan := { plan with bases := bases, groups := groups } }

/-- The operands a computed handle waits for. -/
def operands (w : Waveform) (signal : Signal) : List Signal :=
  if signal.isSlice then [signal.base] else w.compositionParts signal

/-- One turn of the planning loop: the top of the stack is known already, must wait for its
operands, or gets its slot. -/
def expandStep (w : Waveform) (p : Planning) (signal : Signal) (expanded : Bool)
    (pending : List (Signal × Bool)) : Except Error (Planning × List (Signal × Bool)) :=
  if (p.known signal).isSome then .ok (p, pending)
  else
    match (if expanded then .ok () else w.admit signal) with
    | .error e => .error e
    | .ok () =>
      if signal.computed && !expanded then
        .ok (p, (operands w signal).map (·, false) ++ (signal, true) :: pending)
      else .ok (p.retain w signal, pending)

/-- The planning loop over its stack. -/
def expand (w : Waveform) : Nat → Planning → List (Signal × Bool) → Except Error Planning
  | 0, p, _ => .ok p
  | _ + 1, p, [] => .ok p
  | fuel + 1, p, (signal, expanded) :: pending =>
    match expandStep w p signal expanded pending with
    | .error e => .error e
    | .ok (p, pending) => expand w fuel p pending

/-- A bound on the turns one handle takes: two for a computed handle, and those of its operands. -/
def Waveform.cost (w : Waveform) : Signal → Nat :=
  w.evaluate (fun _ => 1)
    (fun signal n => if signal.computed && signal.isSlice then n + 2 else n)
    (fun parts => (parts.map Prod.snd).sum + 2)

/-- Record the slot of a selection entry. -/
def Planning.enter (p : Planning) (signal : Signal) : Planning :=
  { p with plan := { p.plan with indices := p.plan.indices ++ [(p.known signal).getD 0] } }

/-- The loop over the selected handles. -/
def planAll (w : Waveform) : Planning → List Signal → Except Error Planning
  | p, [] => .ok p
  | p, signal :: rest =>
    match expand w (w.cost signal + 1) p [(signal, false)] with
    | .error e => .error e
    | .ok p => planAll w (p.enter signal) rest

/-- `Plan::new`. -/
def Plan.new (w : Waveform) (signals : List Signal) : Except Error Plan :=
  match planAll w .empty signals with
  | .error e => .error e
  | .ok p => .ok p.plan

/-! ## What planning delivers -/

/-- The computations of the slots, each from slots before its own. -/
inductive Computes (w : Waveform) : List Signal → List Computation → Prop
  | nil : Computes w [] []
  | source {slots computations signal} : Computes w slots computations → signal.computed = false →
      Computes w (slots ++ [signal]) computations
  | slice {slots computations signal input} : Computes w slots computations →
      signal.computed = true → signal.isSlice = true → slots[input]? = some signal.base →
      Computes w (slots ++ [signal]) (computations ++ [.slice slots.length input signal])
  | concat {slots computations signal inputs width} : Computes w slots computations →
      signal.computed = true → signal.isSlice = false →
      List.Forall₂ (fun part input => slots[input.1]? = some part ∧ input.2 = part.width.getD 0)
        (w.compositionParts signal) inputs →
      Computes w (slots ++ [signal]) (computations ++ [.concat slots.length inputs width])

/-- The slots of a plan fit its waveform. -/
structure Plan.Fits (w : Waveform) (plan : Plan) : Prop where
  valid : ∀ signal ∈ plan.retained, w.Valid signal
  computes : Computes w plan.retained plan.computations
  entries : ∀ base slot, slot ∈ plan.entries base ↔
    ∃ signal, plan.retained[slot]? = some signal ∧ signal.computed = false ∧ signal.index = base
  entries_nodup : ∀ base, (plan.entries base).Nodup
  bases : ∀ base, (plan.groups base).isSome = true ↔ base ∈ plan.bases.map Signal.index
  sources : ∀ base ∈ plan.bases, ∃ signal ∈ plan.retained,
    signal.computed = false ∧ base = signal.base

/-- The plan serves a selection: each entry has the slot of its handle. -/
structure Plan.Plans (w : Waveform) (signals : List Signal) (plan : Plan) : Prop
    extends Plan.Fits w plan where
  indices : plan.indices.map (fun slot => plan.retained[slot]?) = signals.map some

/-- The invariant of planning: the known handles are those with a slot. -/
structure Planning.Sound (w : Waveform) (p : Planning) : Prop extends Plan.Fits w p.plan where
  known : ∀ signal slot, p.known signal = some slot ↔ p.plan.retained[slot]? = some signal

/-- A later plan has the slots of an earlier one. -/
structure Planning.Extends (p p' : Planning) : Prop where
  retained : ∃ more, p'.plan.retained = p.plan.retained ++ more
  indices : p'.plan.indices = p.plan.indices

theorem Planning.Extends.refl (p : Planning) : p.Extends p := ⟨⟨[], by simp⟩, rfl⟩

/-- Extensions of a planning compose. -/
theorem Planning.Extends.trans {p p' p'' : Planning} (h : p.Extends p') (h' : p'.Extends p'') :
    p.Extends p'' := by
  obtain ⟨more, hmore⟩ := h.retained
  obtain ⟨more', hmore'⟩ := h'.retained
  exact ⟨⟨more ++ more', by rw [hmore', hmore, List.append_assoc]⟩, h'.indices.trans h.indices⟩

/-- A slot stays in a later plan. -/
theorem Planning.Extends.slot {p p' : Planning} (h : p.Extends p') {slot : Nat} {signal : Signal}
    (hslot : p.plan.retained[slot]? = some signal) : p'.plan.retained[slot]? = some signal := by
  obtain ⟨more, hmore⟩ := h.retained
  rw [hmore]
  exact getElem?_append_of_some hslot

/-- A known handle stays known. -/
theorem Planning.Extends.known {w : Waveform} {p p' : Planning} (h : p.Extends p')
    (hp : p.Sound w) (hp' : p'.Sound w) {signal : Signal}
    (hknown : (p.known signal).isSome = true) :
    (p'.known signal).isSome = true := by
  obtain ⟨slot, hslot⟩ := Option.isSome_iff_exists.1 hknown
  rw [(hp'.known signal slot).2 (h.slot ((hp.known signal slot).1 hslot))]
  rfl

/-- The empty planning is sound: it retains nothing. -/
theorem Planning.empty_sound (w : Waveform) : Planning.empty.Sound w where
  valid := nofun
  computes := .nil
  entries := by simp [Planning.empty, Plan.entries]
  entries_nodup := by simp [Planning.empty, Plan.entries]
  bases := by simp [Planning.empty]
  sources := nofun
  known := by simp [Planning.empty]

/-! ## One handle gets its slot -/

section
variable {w : Waveform} {p : Planning} {signal : Signal}

/-- The handle just retained has the next slot. -/
theorem retain_retained : (p.retain w signal).plan.retained = p.plan.retained ++ [signal] := by
  unfold Planning.retain
  dsimp only
  split <;> rfl

/-- Retaining a handle selects nothing. -/
theorem retain_indices : (p.retain w signal).plan.indices = p.plan.indices := by
  unfold Planning.retain
  dsimp only
  split <;> rfl

/-- A handle that is retained is known at the slot it gets. -/
theorem retain_known (s : Signal) : (p.retain w signal).known s =
    if s = signal then some p.plan.retained.length else p.known s := by
  unfold Planning.retain
  dsimp only
  split <;> rfl

theorem retain_extends : p.Extends (p.retain w signal) :=
  ⟨⟨[signal], retain_retained⟩, retain_indices⟩

/-- A new handle does not have a slot yet. -/
theorem Planning.Sound.fresh (h : p.Sound w) (hnew : p.known signal = none) (slot : Nat) :
    p.plan.retained[slot]? ≠ some signal := fun hslot => by
  rw [(h.known signal slot).2 hslot] at hnew
  cases hnew

/-- The slots known after a handle is retained. -/
theorem Planning.Sound.retain_known_iff (h : p.Sound w) (hnew : p.known signal = none) (s : Signal)
    (slot : Nat) : (p.retain w signal).known s = some slot ↔
      (p.retain w signal).plan.retained[slot]? = some s := by
  rw [retain_known, retain_retained, getElem?_concat_iff]
  by_cases hs : s = signal
  · subst hs
    rw [if_pos rfl, Option.some.injEq]
    simp [h.fresh hnew slot, eq_comm]
  · rw [if_neg hs, h.known s slot]
    simp [Ne.symm hs]

/-- A source handle joins the slots its history feeds. -/
theorem Planning.Sound.retain_source (h : p.Sound w) (hvalid : w.Valid signal)
    (hnew : p.known signal = none) (hc : signal.computed = false) :
    (p.retain w signal).Sound w := by
  have hplan : (p.retain w signal).plan =
      { p.plan with
        retained := p.plan.retained ++ [signal]
        bases := if (p.plan.groups signal.index).isNone then p.plan.bases ++ [signal.base]
          else p.plan.bases
        groups := fun i =>
          if i = signal.index then some (p.plan.entries signal.index ++ [p.plan.retained.length])
          else p.plan.groups i } := by
    simp [Planning.retain, hc, Plan.entries]
  have hentries : ∀ i, (p.retain w signal).plan.entries i =
      if i = signal.index then p.plan.entries i ++ [p.plan.retained.length]
      else p.plan.entries i := by
    intro i
    unfold Plan.entries
    rw [hplan]
    by_cases hi : i = signal.index
    · simp [hi, Plan.entries]
    · simp [hi]
  refine ⟨⟨?_, ?_, ?_, ?_, ?_, ?_⟩, h.retain_known_iff hnew⟩
  · rw [retain_retained]
    intro s hs
    rcases List.mem_append.1 hs with hs | hs
    · exact h.valid s hs
    · rw [List.mem_singleton.1 hs]; exact hvalid
  · rw [hplan]
    exact .source h.computes hc
  · intro base slot
    rw [hentries, retain_retained]
    have hold := h.entries base slot
    have hlast : (∃ s, (p.plan.retained ++ [signal])[slot]? = some s ∧ s.computed = false ∧
        s.index = base) ↔ slot ∈ p.plan.entries base ∨
          slot = p.plan.retained.length ∧ signal.index = base := by
      rw [hold]
      constructor
      · rintro ⟨s, hs, hrest⟩
        rcases getElem?_concat_iff.1 hs with hs | ⟨rfl, rfl⟩
        · exact .inl ⟨s, hs, hrest⟩
        · exact .inr ⟨rfl, hrest.2⟩
      · rintro (⟨s, hs, hrest⟩ | ⟨rfl, rfl⟩)
        · exact ⟨s, getElem?_append_of_some hs, hrest⟩
        · exact ⟨signal, List.getElem?_concat_length, hc, rfl⟩
    rw [hlast]
    by_cases hbase : base = signal.index
    · simp [hbase]
    · simp [hbase, Ne.symm hbase]
  · intro base
    rw [hentries]
    split
    · refine List.Nodup.append (h.entries_nodup base) (List.nodup_singleton _) ?_
      rw [List.disjoint_singleton]
      intro hmem
      obtain ⟨s, hs, -⟩ := (h.entries base _).1 hmem
      rw [List.getElem?_eq_none (Nat.le_refl _)] at hs
      cases hs
    · exact h.entries_nodup base
  · intro base
    rw [hplan]
    dsimp only
    have hold := h.bases base
    cases hgroup : p.plan.groups signal.index with
    | none =>
      by_cases hbase : base = signal.index
      · simp [hbase, Signal.base]
      · simp [hbase, hold, Signal.base]
    | some entries =>
      by_cases hbase : base = signal.index
      · subst hbase
        simpa [hgroup] using hold
      · simpa [hbase] using hold
  · rw [retain_retained, hplan]
    intro base hbase
    have hold : base ∈ p.plan.bases → ∃ s ∈ p.plan.retained ++ [signal],
        s.computed = false ∧ base = s.base := fun hbase => by
      obtain ⟨s, hs, hrest⟩ := h.sources base hbase
      exact ⟨s, List.mem_append_left _ hs, hrest⟩
    dsimp only at hbase
    split at hbase
    · rcases List.mem_append.1 hbase with hbase | hbase
      · exact hold hbase
      · exact ⟨signal, by simp, hc, List.mem_singleton.1 hbase⟩
    · exact hold hbase

/-- A computed handle is filled from the slots of its operands. -/
theorem Planning.Sound.retain_computed (h : p.Sound w) (hvalid : w.Valid signal)
    (hnew : p.known signal = none) (hc : signal.computed = true)
    (hoperands : ∀ s ∈ operands w signal, (p.known s).isSome = true) :
    (p.retain w signal).Sound w := by
  have hplan : (p.retain w signal).plan =
      { p.plan with
        retained := p.plan.retained ++ [signal]
        computations := p.plan.computations ++
          [computation w (p.retain w signal).known p.plan.retained.length signal] } := by
    simp [Planning.retain, hc]
  -- An operand is another handle, and its slot is an earlier one.
  have hslot : ∀ s ∈ operands w signal, ∃ slot, (p.retain w signal).known s = some slot ∧
      p.plan.retained[slot]? = some s := by
    intro s hs
    obtain ⟨slot, hslot⟩ := Option.isSome_iff_exists.1 (hoperands s hs)
    refine ⟨slot, ?_, (h.known s slot).1 hslot⟩
    rw [retain_known, if_neg, hslot]
    rintro rfl
    rw [hslot] at hnew
    cases hnew
  have hentries : ∀ i, (p.retain w signal).plan.entries i = p.plan.entries i := fun i => by
    rw [Plan.entries, hplan]; rfl
  refine ⟨⟨?_, ?_, ?_, ?_, ?_, ?_⟩, h.retain_known_iff hnew⟩
  · rw [retain_retained]
    intro s hs
    rcases List.mem_append.1 hs with hs | hs
    · exact h.valid s hs
    · rw [List.mem_singleton.1 hs]; exact hvalid
  · rw [hplan]
    dsimp only
    unfold computation
    cases hslice : signal.isSlice with
    | true =>
      rw [if_pos rfl]
      obtain ⟨slot, hknown, hretained⟩ := hslot signal.base (by simp [operands, hslice])
      rw [hknown]
      exact .slice h.computes hc hslice hretained
    | false =>
      rw [if_neg (by decide)]
      refine .concat h.computes hc hslice ?_
      rw [List.forall₂_map_right_iff, List.forall₂_same]
      intro part hpart
      obtain ⟨slot, hknown, hretained⟩ := hslot part (by simpa [operands, hslice] using hpart)
      rw [hknown]
      exact ⟨hretained, rfl⟩
  · intro base slot
    rw [hentries, retain_retained, h.entries base slot]
    constructor
    · rintro ⟨s, hs, hrest⟩
      exact ⟨s, getElem?_append_of_some hs, hrest⟩
    · rintro ⟨s, hs, hrest⟩
      rcases getElem?_concat_iff.1 hs with hs | ⟨rfl, rfl⟩
      · exact ⟨s, hs, hrest⟩
      · rw [hc] at hrest
        cases hrest.1
  · intro base
    rw [hentries]
    exact h.entries_nodup base
  · intro base
    rw [hplan]
    exact h.bases base
  · rw [retain_retained, hplan]
    intro base hbase
    obtain ⟨s, hs, hrest⟩ := h.sources base hbase
    exact ⟨s, List.mem_append_left _ hs, hrest⟩

end

/-! ## The loop, one handle at a time -/

section
variable {w : Waveform}

/-- From a stack with the handle on top, the loop reaches the rest of the stack with the handle in a
slot. -/
def Reaches (w : Waveform) (signal : Signal) : Prop :=
  ∀ p pending, Planning.Sound w p → ∃ n p', n ≤ w.cost signal ∧ Planning.Sound w p' ∧
    p.Extends p' ∧ (p'.known signal).isSome = true ∧
    ∀ fuel, expand w (n + fuel) p ((signal, false) :: pending) = expand w fuel p' pending

/-- A known handle is dropped from the stack in one turn. -/
theorem expand_known {p : Planning} {signal : Signal} {expanded : Bool}
    {pending : List (Signal × Bool)} (h : (p.known signal).isSome = true) (fuel : Nat) :
    expand w (1 + fuel) p ((signal, expanded) :: pending) = expand w fuel p pending := by
  rw [Nat.add_comm]
  simp [expand, expandStep, h]

/-- A handle that passes its checks is valid and supported. -/
theorem Waveform.admit_ok {signal : Signal} :
    w.admit signal = .ok () ↔ w.Valid signal ∧ signal.encoding ≠ .unsupported := by
  unfold Waveform.admit Waveform.Valid
  split
  · next e he => simp [he]
  · next i hi =>
    rw [hi, (validateEncoding_ok hi).1]
    split
    · next hunsupported => simp [hunsupported]
    · next hsupported => simp [hsupported]

/-- A source handle gets its slot in one turn. -/
theorem reaches_source {signal : Signal} (hvalid : w.Valid signal)
    (hsupported : signal.encoding ≠ .unsupported) (hc : signal.computed = false) :
    Reaches w signal := by
  intro p pending hp
  have hcost : w.cost signal = 1 := by
    rw [Waveform.cost, Waveform.evaluate_source hc]
    simp [hc]
  cases hknown : p.known signal with
  | some slot =>
    have hsome : (p.known signal).isSome = true := by rw [hknown]; rfl
    exact ⟨1, p, hcost.ge, hp, .refl p, hsome, expand_known hsome⟩
  | none =>
    refine ⟨1, p.retain w signal, hcost.ge, hp.retain_source hvalid hknown hc, retain_extends, ?_,
      fun fuel => ?_⟩
    · rw [retain_known, if_pos rfl]; rfl
    · rw [Nat.add_comm]
      have hadmits := Waveform.admit_ok.2 ⟨hvalid, hsupported⟩
      simp [expand, expandStep, hknown, hadmits, hc]

/-- A stack of handles is worked through in order. -/
theorem reaches_all {signals : List Signal} (h : ∀ s ∈ signals, Reaches w s) (p : Planning)
    (pending : List (Signal × Bool)) (hp : p.Sound w) :
    ∃ n p', n ≤ (signals.map w.cost).sum ∧ Planning.Sound w p' ∧ p.Extends p' ∧
      (∀ s ∈ signals, (p'.known s).isSome = true) ∧
      ∀ fuel, expand w (n + fuel) p (signals.map (·, false) ++ pending) =
        expand w fuel p' pending := by
  induction signals generalizing p with
  | nil => exact ⟨0, p, Nat.le_refl _, hp, .refl p, nofun, fun fuel => by simp⟩
  | cons s signals ih =>
    obtain ⟨n, p₁, hn, hp₁, hext₁, hknown₁, hrun₁⟩ := h s (by simp) p
      (signals.map (·, false) ++ pending) hp
    obtain ⟨m, p₂, hm, hp₂, hext₂, hknown₂, hrun₂⟩ :=
      ih (fun s hs => h s (List.mem_cons_of_mem _ hs)) p₁ hp₁
    refine ⟨n + m, p₂, ?_, hp₂, hext₁.trans hext₂, fun s' hs' => ?_, fun fuel => ?_⟩
    · rw [List.map_cons, List.sum_cons]
      omega
    · rcases List.mem_cons.1 hs' with rfl | hs'
      · exact hext₂.known hp₁ hp₂ hknown₁
      · exact hknown₂ s' hs'
    · rw [List.map_cons, List.cons_append, Nat.add_assoc, hrun₁, hrun₂]

/-- A computed handle gets its slot after its operands. -/
theorem reaches_computed {signal : Signal} (hvalid : w.Valid signal)
    (hsupported : signal.encoding ≠ .unsupported) (hc : signal.computed = true)
    (hcost : ((operands w signal).map w.cost).sum + 2 ≤ w.cost signal)
    (h : ∀ s ∈ operands w signal, Reaches w s) : Reaches w signal := by
  intro p pending hp
  cases hknown : p.known signal with
  | some slot =>
    have hsome : (p.known signal).isSome = true := by rw [hknown]; rfl
    exact ⟨1, p, by omega, hp, .refl p, hsome, expand_known hsome⟩
  | none =>
    obtain ⟨n, p', hn, hp', hext, hall, hrun⟩ := reaches_all h p ((signal, true) :: pending) hp
    have hadmits := Waveform.admit_ok.2 ⟨hvalid, hsupported⟩
    have hfirst : ∀ fuel, expand w (1 + fuel) p ((signal, false) :: pending) =
        expand w fuel p ((operands w signal).map (·, false) ++ (signal, true) :: pending) := by
      intro fuel
      rw [Nat.add_comm]
      simp [expand, expandStep, hknown, hadmits, hc]
    cases hknown' : p'.known signal with
    | some slot =>
      have hsome : (p'.known signal).isSome = true := by rw [hknown']; rfl
      refine ⟨1 + n + 1, p', by omega, hp', hext, hsome, fun fuel => ?_⟩
      rw [show 1 + n + 1 + fuel = 1 + (n + (1 + fuel)) by omega, hfirst, hrun, expand_known hsome]
    | none =>
      refine ⟨1 + n + 1, p'.retain w signal, by omega,
        hp'.retain_computed hvalid hknown' hc hall, hext.trans retain_extends, ?_, fun fuel => ?_⟩
      · rw [retain_known, if_pos rfl]; rfl
      · rw [show 1 + n + 1 + fuel = 1 + (n + (1 + fuel)) by omega, hfirst, hrun, Nat.add_comm]
        simp [expand, expandStep, hknown', hc]

/-- A computed handle takes two turns more than its operands. -/
theorem Waveform.Valid.cost_operands {signal : Signal} (h : w.Valid signal)
    (hc : signal.computed = true) :
    ((Query.operands w signal).map w.cost).sum + 2 ≤ w.cost signal := by
  have hlt := h.index_lt hc
  have hwhole : ∀ s : Signal, s.computed = true → s.index = signal.index → s.isSlice = false →
      w.cost s = ((w.compositionParts signal).map w.cost).sum + 2 := by
    intro s hsc hindex hslice
    rw [Waveform.cost, Waveform.evaluate_computed hsc (hindex ▸ hlt), hslice, Bool.and_false]
    simp [Waveform.compositionParts, hindex, Function.comp_def]
  cases hslice : signal.isSlice with
  | false => rw [hwhole signal hc rfl hslice, Query.operands, hslice, if_neg (by decide)]
  | true =>
    have hbase := hwhole signal.base hc rfl (Waveform.base_isSlice signal)
    rw [Query.operands, hslice, if_pos rfl, List.map_singleton, List.sum_singleton, hbase,
      Waveform.cost, Waveform.evaluate_computed hc hlt, hslice, hc]
    simp [Function.comp_def]

/-- The base of a valid handle is valid. -/
theorem Waveform.Valid.base {signal : Signal} (h : w.Valid signal) : w.Valid signal.base := by
  obtain ⟨-, hsource, hencoding, hin⟩ := validateEncoding_ok h
  have hbase : inBase signal.base = true := by
    unfold inBase Signal.base
    dsimp only
    split
    · next b width hb hw =>
      rw [hb, Encoding.bits.injEq] at hw
      simp [hw]
    · simp
  have hencoding' : encodingOf w.encodings w.definitions signal.base =
      some signal.base.baseEncoding := hencoding
  show validateEncoding w.source signal.base _ = .ok _
  rw [validateEncoding, hencoding', if_pos (by simp [Signal.base, hsource] at *; exact hbase)]

/-- The loop finds a slot for every valid handle. -/
theorem expand_reaches {signal : Signal} (hvalid : w.Valid signal)
    (hsupported : signal.encoding ≠ .unsupported) : Reaches w signal := by
  refine Waveform.induct (w := w)
    (P := fun signal => signal.encoding ≠ .unsupported → Reaches w signal)
    (fun signal hvalid hc hsupported => reaches_source hvalid hsupported hc) ?_ hvalid hsupported
  intro signal hvalid hc ih hsupported
  have hlt := hvalid.index_lt hc
  have hparts : ∀ part ∈ w.compositionParts signal, Reaches w part := by
    intro part hpart
    obtain ⟨-, ⟨width, hbits⟩, -⟩ := hvalid.part hc hpart
    exact ih part hpart (by simp [hbits])
  have hwhole : ∀ s : Signal, w.Valid s → s.encoding ≠ .unsupported → s.computed = true →
      s.index = signal.index → s.isSlice = false → Reaches w s := by
    intro s hs hsup hsc hindex hslice
    have hoperands : operands w s = w.compositionParts signal := by
      simp [operands, hslice, Waveform.compositionParts, hindex]
    exact reaches_computed hs hsup hsc (hs.cost_operands hsc) (hoperands ▸ hparts)
  cases hslice : signal.isSlice with
  | false => exact hwhole signal hvalid hsupported hc rfl hslice
  | true =>
    have hbits : signal.baseEncoding ≠ .unsupported := by
      have hencoding := (validateEncoding_ok hvalid).2.2.1
      simp only [encodingOf, hc, if_true] at hencoding
      obtain ⟨d, -, hd⟩ := Option.map_eq_some_iff.1 hencoding
      simp [← hd]
    have hoperands : operands w signal = [signal.base] := by simp [operands, hslice]
    refine reaches_computed hvalid hsupported hc (hvalid.cost_operands hc) ?_
    rw [hoperands]
    intro s hs
    rw [List.mem_singleton.1 hs]
    exact hwhole signal.base hvalid.base hbits hc rfl (Waveform.base_isSlice signal)

/-- The loop over one selected handle ends with the handle in a slot, or with the handle's error. -/
theorem expand_one {p : Planning} (hp : p.Sound w) (signal : Signal) :
    (∃ p', expand w (w.cost signal + 1) p [(signal, false)] = .ok p' ∧ Planning.Sound w p' ∧
      p.Extends p' ∧ (p'.known signal).isSome = true) ∨
    ∃ e, expand w (w.cost signal + 1) p [(signal, false)] = .error e ∧
    w.admit signal = .error e := by
  cases hknown : p.known signal with
  | some slot =>
    refine .inl ⟨p, ?_, hp, .refl p, by rw [hknown]; rfl⟩
    rw [Nat.add_comm, expand_known (by rw [hknown]; rfl)]
    cases w.cost signal <;> rfl
  | none =>
    cases hadmits : w.admit signal with
    | error e =>
      exact .inr ⟨e, by simp [expand, expandStep, hknown, hadmits], rfl⟩
    | ok u =>
      obtain ⟨hvalid, hsupported⟩ := Waveform.admit_ok.1 hadmits
      obtain ⟨n, p', hn, hp', hext, hsome, hrun⟩ := expand_reaches hvalid hsupported p [] hp
      refine .inl ⟨p', ?_, hp', hext, hsome⟩
      rw [show w.cost signal + 1 = n + (w.cost signal - n + 1) by omega, hrun]
      rfl

theorem Planning.Sound.enter {p : Planning} (h : p.Sound w) (signal : Signal) :
    (p.enter signal).Sound w :=
  ⟨⟨h.valid, h.computes, h.entries, h.entries_nodup, h.bases, h.sources⟩, h.known⟩

/-- The loop over the selected handles keeps the plan sound and adds their slots. -/
theorem planAll_sound {signals : List Signal} (done : List Signal) {p p' : Planning}
    (hp : p.Sound w)
    (hindices : p.plan.indices.map (fun slot => p.plan.retained[slot]?) = done.map some)
    (h : planAll w p signals = .ok p') :
    p'.Sound w ∧ p'.plan.indices.map (fun slot => p'.plan.retained[slot]?) =
      (done ++ signals).map some := by
  induction signals generalizing p done with
  | nil => cases h; exact ⟨hp, by rw [hindices, List.append_nil]⟩
  | cons signal signals ih =>
    unfold planAll at h
    rcases expand_one hp signal with ⟨q, hq, hsound, hext, hsome⟩ | ⟨e, he, -⟩
    · rw [hq] at h
      dsimp only at h
      obtain ⟨slot, hslot⟩ := Option.isSome_iff_exists.1 hsome
      have hretained := (hsound.known signal slot).1 hslot
      rw [← List.singleton_append, ← List.append_assoc]
      refine ih _ (hsound.enter signal) ?_ h
      show (q.plan.indices ++ [(q.known signal).getD 0]).map (fun slot =>
        q.plan.retained[slot]?) = _
      rw [hslot, Option.getD_some, List.map_append, List.map_append, List.map_cons, List.map_nil,
        hretained, hext.indices, ← hindices]
      congr 1
      refine List.map_congr_left fun j hj => ?_
      -- A slot of an earlier entry is still there.
      have hsome' : (p.plan.retained[j]?).isSome = true := by
        have hmem := List.mem_map_of_mem (f := fun slot => p.plan.retained[slot]?) hj
        rw [hindices] at hmem
        obtain ⟨s, -, hs⟩ := List.mem_map.1 hmem
        rw [← hs]
        rfl
      obtain ⟨s, hs⟩ := Option.isSome_iff_exists.1 hsome'
      rw [hs, hext.slot hs]
    · rw [he] at h
      cases h

/-- A plan serves the selection it was made for. -/
theorem Plan.new_plans {signals : List Signal} {plan : Plan}
    (h : Plan.new w signals = .ok plan) : plan.Plans w signals := by
  unfold Plan.new at h
  split at h
  · cases h
  next p hp =>
  cases h
  obtain ⟨hsound, hindices⟩ := planAll_sound [] (Planning.empty_sound w) rfl hp
  exact ⟨hsound.toFits, hindices⟩

/-- Planning fails only with the error of a selected handle. -/
theorem Plan.new_error {signals : List Signal} {e : Error} (h : Plan.new w signals = .error e) :
    ∃ signal ∈ signals, w.admit signal = .error e := by
  have hall : ∀ p, Planning.Sound w p → planAll w p signals = .error e →
      ∃ signal ∈ signals, w.admit signal = .error e := by
    clear h
    induction signals with
    | nil => intro p _ h; cases h
    | cons signal signals ih =>
      intro p hp h
      unfold planAll at h
      rcases expand_one hp signal with ⟨q, hq, hsound, -, -⟩ | ⟨e', he', hadmits⟩
      · rw [hq] at h
        obtain ⟨s, hs, hadmits⟩ := ih _ (hsound.enter signal) h
        exact ⟨s, List.mem_cons_of_mem _ hs, hadmits⟩
      · rw [he'] at h
        cases h
        exact ⟨signal, by simp, hadmits⟩
  unfold Plan.new at h
  split at h
  · next e' he' => cases h; exact hall _ (Planning.empty_sound w) he'
  · cases h

end
end Ondas.Query
