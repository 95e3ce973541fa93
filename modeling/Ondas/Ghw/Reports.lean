import Ondas.Ghw.Counting
import Ondas.Library.Ticks

/-!
# What a read reports of a slot

The consumer of a read reports a slot at the end of a list that touched it, with all source IDs
seen. How lists are cut does not count: as long as each time ends before the next one begins
(`Closes`), the last report of each time is that of the scalars alone (`run_reports`). The slot is
reported at a time when one of its source IDs is written then, and all of them were seen up to it
(`reported_iff`).
-/

namespace Ondas.Ghw

open Library Wire

namespace Assembly

/-! ## Marks -/

section
variable {a a' : Assembly} {ds : List Dependency} {slot : Nat} {value : Scalar} {first : Bool}

/-- The marks are those of the touched slots, each of which is listed once. -/
structure Marked (a : Assembly) : Prop where
  length : a.marks.length = a.buffers.length
  marks : ∀ slot < a.buffers.length, a.marks[slot]? = some (decide (slot ∈ a.touched))
  nodup : a.touched.Nodup

/-- What a change of some slots does to the marks, and to the other slots. -/
structure Touches (written : Nat → Prop) (a a' : Assembly) : Prop where
  marked : Marked a'
  touched : ∀ slot, slot ∈ a'.touched ↔ slot ∈ a.touched ∨ written slot
  others : ∀ slot, ¬ written slot → a'.buffers[slot]? = a.buffers[slot]?

/-- A buffer that is put in its slot touches it. -/
theorem Marked.put (h : Marked a) (hslot : slot < a.buffers.length) (b : Buffer) :
    Touches (slot = ·) a (a.put slot b) := by
  have hmark := h.marks slot hslot
  have hgetD : a.marks.getD slot true = decide (slot ∈ a.touched) := by
    rw [List.getD_eq_getElem?_getD, hmark]
    rfl
  have hlength : (a.put slot b).buffers.length = a.buffers.length := List.length_set
  have htouched : ∀ other, other ∈ (a.put slot b).touched ↔ other ∈ a.touched ∨ slot = other := by
    intro other
    show other ∈ (if a.marks.getD slot true then a.touched else a.touched ++ [slot]) ↔ _
    rw [hgetD]
    by_cases hmem : slot ∈ a.touched
    · rw [if_pos (decide_eq_true hmem)]
      exact ⟨.inl, fun hor => hor.elim id fun heq => heq ▸ hmem⟩
    · rw [if_neg (by rwa [decide_eq_true_eq]), List.mem_append, List.mem_singleton, eq_comm]
  refine ⟨⟨?_, fun other hother => ?_, ?_⟩, htouched, fun other hne => ?_⟩
  · show (if a.marks.getD slot true then a.marks else a.marks.set slot true).length = _
    rw [hlength, ← h.length]
    split
    · rfl
    · exact List.length_set
  · have hother' : other < a.buffers.length := hlength ▸ hother
    have hold := h.marks other hother'
    simp only [htouched]
    show (if a.marks.getD slot true then a.marks else a.marks.set slot true)[other]? = _
    rw [hgetD]
    by_cases hmem : slot ∈ a.touched
    · rw [if_pos (decide_eq_true hmem), hold]
      refine congrArg some (decide_eq_decide.2 ⟨.inl, fun hor => hor.elim id fun heq => heq ▸ hmem⟩)
    · rw [if_neg (by rwa [decide_eq_true_eq]), List.getElem?_set, h.length]
      by_cases heq : slot = other
      · rw [if_pos heq, if_pos hslot, decide_eq_true (.inr heq)]
      · rw [if_neg heq, hold]
        exact congrArg some (decide_eq_decide.2 ⟨.inl, fun hor => hor.resolve_right heq⟩)
  · show (if a.marks.getD slot true then a.touched else a.touched ++ [slot]).Nodup
    rw [hgetD]
    by_cases hmem : slot ∈ a.touched
    · rw [if_pos (decide_eq_true hmem)]
      exact h.nodup
    · rw [if_neg (by rwa [decide_eq_true_eq])]
      exact List.nodup_append_comm.1 (List.nodup_cons.2 ⟨hmem, h.nodup⟩)
  · exact List.getElem?_set_ne hne

/-- Updates touch the slots of their dependencies. -/
theorem updateAll_touches : ∀ {ds : List Dependency} {a : Assembly}, Marked a →
    updateAll value first ds a = some a' → Touches (fun slot => ∃ d ∈ ds, d.slot = slot) a a'
  | [], a, h, hrun => by
    cases hrun
    exact ⟨h, fun slot => (or_iff_left fun ⟨_, hd, _⟩ => List.not_mem_nil hd).symm,
      fun slot _ => rfl⟩
  | d :: ds, a, h, hrun => by
    unfold updateAll at hrun
    cases hb : a.buffers[d.slot]? with
    | none => rw [hb] at hrun; cases hrun
    | some b =>
      rw [hb] at hrun
      dsimp only at hrun
      cases hupdate : b.update d.position value first with
      | none => rw [hupdate] at hrun; cases hrun
      | some b' =>
        rw [hupdate] at hrun
        have hput := h.put (List.getElem?_eq_some_iff.1 hb).1 b'
        have hrest := updateAll_touches hput.marked hrun
        refine ⟨hrest.marked, fun slot => ?_, fun slot hnot => ?_⟩
        · rw [hrest.touched, hput.touched, or_assoc, List.exists_mem_cons_iff]
        · rw [List.exists_mem_cons_iff, not_or] at hnot
          exact (hrest.others slot hnot.2).trans (hput.others slot hnot.1)

end

/-! ## Scalars -/

/-- The source IDs of dependencies in order. -/
theorem mem_sourceIdsOf {ds : List Dependency} (h : ds.Pairwise fun d d' => d.id ≤ d'.id)
    {id : Nat} : id ∈ sourceIdsOf ds ↔ ∃ d ∈ ds, d.id = id := by
  rw [sourceIdsOf, mem_destutter (List.pairwise_map.2 h), List.mem_map]

/-- They ascend. -/
theorem sourceIdsOf_ascend {ds : List Dependency} (h : ds.Pairwise fun d d' => d.id ≤ d'.id) :
    (sourceIdsOf ds).Pairwise (· < ·) :=
  destutter_increasing (List.pairwise_map.2 h)

section
variable {t : Types} {active : Active} {slots : List Recipe} {a a' : Assembly}
  {ds : List Dependency} {slot : Nat} {value : Scalar} {first : Bool} {e e' : ScalarEvent}

/-- A scalar is for a slot that has a dependency of its source ID. -/
def writes (a : Assembly) (slot : Nat) (e : ScalarEvent) : Prop :=
  ∃ d ∈ a.dependencies, d.slot = slot ∧ d.id = e.id

instance : Decidable (a.writes slot e) := inferInstanceAs (Decidable (∃ _ ∈ _, _))

/-- A scalar touches the slots that it is for. -/
theorem scalarEvent_touches (h : Fitted t active slots a) (hslots : AllSuit t active slots)
    (hactive : active.Pairwise fun x y => x.1 < y.1)
    (hevent : Delivers t active (sourceIdsOf a.dependencies) e) (hmarked : Marked a)
    (hrun : a.scalarEvent e = some a') : Touches (a.writes · e) a a' := by
  have hstep := scalarEvent_step h hslots hactive hevent
  rw [hrun] at hstep
  generalize hresult : some a' = result at hstep
  have hwrites : ∀ {below equal above : List Dependency},
      Parted Dependency.id e.id a.dependencies below equal above →
      ∀ slot, a.writes slot e ↔ ∃ d ∈ equal, d.slot = slot := by
    intro below equal above hparted slot
    have hfilter := hparted.filter_equal
    constructor
    · rintro ⟨d, hd, hslot, hid⟩
      exact ⟨d, hfilter ▸ List.mem_filter.2 ⟨hd, decide_eq_true hid⟩, hslot⟩
    · rintro ⟨d, hd, hslot⟩
      obtain ⟨hd, hid⟩ := List.mem_filter.1 (hfilter.symm ▸ hd)
      exact ⟨d, hd, hslot, of_decide_eq_true hid⟩
  cases hstep with
  | missed hparted =>
    cases hresult
    refine ⟨hmarked, fun slot => ?_, fun slot _ => rfl⟩
    rw [hwrites hparted slot]
    exact (or_iff_left fun ⟨_, hd, _⟩ => List.not_mem_nil hd).symm
  | @hit below others above owner hparted =>
    have hseen : ∀ slot, (∃ d ∈ { owner with seen := true } :: others, d.slot = slot) ↔
        a.writes slot e := by
      intro slot
      rw [hwrites hparted slot, List.exists_mem_cons_iff, List.exists_mem_cons_iff]
    have hmarked' : Marked { a with
        dependencies := below ++ ({ owner with seen := true } :: others ++ above) } :=
      ⟨hmarked.length, hmarked.marks, hmarked.nodup⟩
    have htouches := updateAll_touches hmarked' hresult.symm
    exact ⟨htouches.marked,
      fun slot => (htouches.touched slot).trans (or_congr_right (hseen slot)),
      fun slot hnot => htouches.others slot ((hseen slot).not.2 hnot)⟩

/-- An assembly without marks, in which no slot is touched any more. -/
def rested (a : Assembly) : Assembly := { a with marks := [], touched := [] }

/-- Updates do not look at the marks. -/
theorem updateAll_rested (ds : List Dependency) : ∀ a : Assembly,
    (updateAll value first ds a).map rested = updateAll value first ds a.rested := by
  induction ds with
  | nil => exact fun _ => rfl
  | cons d ds ih =>
    intro a
    have hbuffers : a.rested.buffers = a.buffers := rfl
    unfold updateAll
    rw [hbuffers]
    cases a.buffers[d.slot]? with
    | none => rfl
    | some b =>
      dsimp only
      cases b.update d.position value first with
      | none => rfl
      | some b' => exact ih (a.put d.slot b')

/-- Neither does the consumer at a scalar. -/
theorem scalarEvent_rested (a : Assembly) (e : ScalarEvent) :
    (a.scalarEvent e).map rested = a.rested.scalarEvent e := by
  have hdependencies : a.rested.dependencies = a.dependencies := rfl
  have hrange : eventRange e a.rested.routes a.rested.selected a.dependencies =
      eventRange e a.routes a.selected a.dependencies := rfl
  unfold scalarEvent
  rw [hdependencies, hrange]
  dsimp only
  generalize eventRange e a.routes a.selected a.dependencies = range
  split
  · rfl
  · cases a.dependencies[range.1]? with
    | none => rfl
    | some owner =>
      dsimp only
      split
      · rfl
      · exact updateAll_rested _ _

/-- What is reported of a slot at a time: its value, when all its source IDs were seen. -/
def report (a : Assembly) (slot time : Nat) : History Value :=
  (((a.buffers[slot]?).filter fun b => decide (b.known = b.required)).map fun b =>
    (time, b.value)).toList

/-- What is reported of a slot at each scalar that is for it. -/
def reports (slot : Nat) : Assembly → List ScalarEvent → History Value
  | _, [] => []
  | a, e :: es =>
    match a.scalarEvent e with
    | none => []
    | some a' => (if a.writes slot e then a'.report slot e.time else []) ++ reports slot a' es

/-- The reports do not depend on the marks. -/
theorem reports_rested (slot : Nat) : ∀ (es : List ScalarEvent) (a : Assembly),
    reports slot a.rested es = reports slot a es
  | [], _ => rfl
  | e :: es, a => by
    have hrested := scalarEvent_rested a e
    unfold reports
    rw [← hrested]
    cases a.scalarEvent e with
    | none => rfl
    | some a' =>
      show (if a.writes slot e then a'.report slot e.time else []) ++ reports slot a'.rested es = _
      rw [reports_rested slot es a']

/-- Only the source ID and the value of a scalar count. -/
theorem scalarEvent_congr (h : Fitted t active slots a) (hslots : AllSuit t active slots)
    (hactive : active.Pairwise fun x y => x.1 < y.1)
    (hevent : Delivers t active (sourceIdsOf a.dependencies) e)
    (hevent' : Delivers t active (sourceIdsOf a.dependencies) e') (hid : e'.id = e.id)
    (hvalue : e'.value = e.value) : a.scalarEvent e' = a.scalarEvent e := by
  unfold scalarEvent
  rw [h.range hslots hactive hevent, h.range hslots hactive hevent', hid, hvalue]

/-- Scalars that are for no slot are passed over. -/
theorem scalarEvent_missed (h : Fitted t active slots a) (hslots : AllSuit t active slots)
    (hactive : active.Pairwise fun x y => x.1 < y.1)
    (hevent : Delivers t active (sourceIdsOf a.dependencies) e)
    (hmissed : ∀ d ∈ a.dependencies, d.id ≠ e.id) : a.scalarEvent e = some a := by
  have hstep := scalarEvent_step h hslots hactive hevent
  generalize a.scalarEvent e = result at hstep
  cases hstep with
  | missed => rfl
  | @hit below others above owner hparted =>
    refine absurd (hparted.equal owner (.head _)) (hmissed owner ?_)
    rw [hparted.eq]
    exact List.mem_append_right _ (.head _)

/-- What a selection makes of scalars: those of the source IDs of some dependencies, with the same
source IDs, values and times. -/
structure Selects (t : Types) (active : Active) (ids : List Nat)
    (select : ScalarEvent → Option ScalarEvent) (e : ScalarEvent) : Prop where
  delivers : Delivers t active ids e
  none : select e = none → e.id ∉ ids
  some : ∀ e', select e = some e' → Delivers t active ids e' ∧ e'.id = e.id ∧
    e'.value = e.value ∧ e'.time = e.time

/-- **A selection of the scalars gives the same reports.** By induction on the scalars: one that is
left out is for no slot. -/
theorem reports_selected (hslots : AllSuit t active slots)
    (hactive : active.Pairwise fun x y => x.1 < y.1) (slot : Nat)
    {select : ScalarEvent → Option ScalarEvent} : ∀ (es : List ScalarEvent) (a : Assembly),
    Fitted t active slots a →
    (∀ e ∈ es, Selects t active (sourceIdsOf a.dependencies) select e) →
    reports slot a (es.filterMap select) = reports slot a es
  | [], _, _, _ => rfl
  | e :: es, a, h, hselects => by
    obtain ⟨hdelivers, hnone, hsome⟩ := hselects e (.head _)
    have hevent : ∀ e', Event.scalar e = .scalar e' →
        Delivers t active (sourceIdsOf a.dependencies) e' := by
      rintro e' ⟨⟩
      exact hdelivers
    obtain ⟨notifications, a', hconsume, hfitted, hkeys⟩ := consume_total h hslots hactive hevent
    obtain ⟨c, hrun, hpair⟩ := Option.map_eq_some_iff.1 hconsume
    cases hpair
    have hrest := reports_selected hslots hactive slot es a' hfitted
      (sourceIdsOf_congr hkeys ▸ fun e he => hselects e (.tail _ he))
    rw [List.filterMap_cons]
    cases hselect : select e with
    | none =>
      have hmissed : ∀ d ∈ a.dependencies, d.id ≠ e.id := fun d hd hid =>
        hnone hselect ((mem_sourceIdsOf h.sorted).2 ⟨d, hd, hid⟩)
      cases hrun.symm.trans (scalarEvent_missed h hslots hactive hdelivers hmissed)
      have hwrites : ¬ a.writes slot e := fun ⟨d, hd, _, hid⟩ => hmissed d hd hid
      dsimp only
      rw [reports, hrun]
      dsimp only
      rw [hrest, if_neg hwrites, List.nil_append]
    | some e' =>
      obtain ⟨hdelivers', hid, hvalue, htime⟩ := hsome e' hselect
      have hsame := scalarEvent_congr h hslots hactive hdelivers hdelivers' hid hvalue
      have hwrites : a.writes slot e' ↔ a.writes slot e := by rw [writes, writes, hid]
      dsimp only
      rw [reports, reports, hsame, hrun]
      dsimp only
      rw [hrest, htime, if_congr hwrites rfl rfl]

end

/-! ## Indices -/

section
variable {t : Types} {recipes : List Recipe} {active : Active} {signals : List Signal}
  {a a' : Assembly} {slot index : Nat}

/-- The buffers have the indices of the selected signals, by induction on them. -/
theorem gather_indices {w' : Wire} (signals : List Signal) : ∀ (buffers bs : List Buffer)
    (dependencies ds : List Dependency) (w : Wire),
    gather t recipes signals buffers dependencies w = (.ok (bs, ds), w') →
    bs.map Buffer.index = buffers.map Buffer.index ++ signals.map Signal.index := by
  induction signals with
  | nil =>
    intro buffers bs dependencies ds w h
    cases h
    exact (List.append_nil _).symm
  | cons signal signals ih =>
    intro buffers bs dependencies ds w h
    unfold gather at h
    cases hrecipe : recipes[signal.index]? with
    | none => rw [hrecipe] at h; cases h
    | some recipe =>
      rw [hrecipe] at h
      obtain ⟨b, w₁, hb, hrest⟩ := Decoder.bind_eq_ok.1 h
      rw [ih _ _ _ _ _ hrest, List.map_append, List.map_singleton, (new_of hb).2.2,
        List.append_assoc]
      rfl

/-- Updates keep the indices of the buffers. -/
theorem updateAll_indices {value : Scalar} {first : Bool} {ds : List Dependency}
    (h : updateAll value first ds a = some a') :
    a'.buffers.map Buffer.index = a.buffers.map Buffer.index := by
  induction ds generalizing a with
  | nil => cases h; rfl
  | cons d ds ih =>
    unfold updateAll at h
    cases hbuffer : a.buffers[d.slot]? with
    | none => rw [hbuffer] at h; cases h
    | some b =>
      rw [hbuffer] at h
      dsimp only at h
      cases hupdate : b.update d.position value first with
      | none => rw [hupdate] at h; cases h
      | some b' =>
        rw [hupdate] at h
        refine (ih h).trans ?_
        show (a.buffers.set d.slot b').map Buffer.index = _
        obtain ⟨hlt, hget⟩ := List.getElem?_eq_some_iff.1 hbuffer
        rw [List.map_set, (update_updated hupdate).index, ← hget]
        exact (List.map_set (f := Buffer.index)).symm.trans
          (congrArg (List.map Buffer.index) (List.set_getElem_self hlt))

/-- The consumer keeps the indices of the buffers. -/
theorem consume_indices {event : Event} {notifications : List Notification}
    (h : a.consume event = some (notifications, a')) :
    a'.buffers.map Buffer.index = a.buffers.map Buffer.index := by
  cases event with
  | tick time => cases h; rfl
  | listEnd time => cases h; rfl
  | scalar e =>
    obtain ⟨b, hb, heq⟩ := Option.map_eq_some_iff.1 h
    cases heq
    unfold scalarEvent at hb
    dsimp only at hb
    split at hb
    · cases hb; rfl
    split at hb
    · cases hb
    split at hb
    · cases hb
    · exact (updateAll_indices hb).trans rfl

/-- A read has a buffer for each signal that it was prepared for. -/
theorem prepare_indices {indexed : Bool} {sort : List Dependency → List Dependency} {w w' : Wire}
    (h : prepare t recipes active indexed sort signals w = (.ok a, w')) :
    a.buffers.map Buffer.index = signals.map Signal.index := by
  obtain ⟨⟨buffers, dependencies⟩, w₁, hgather, hpure⟩ := Decoder.bind_eq_ok.1 h
  cases hpure
  exact gather_indices signals _ _ _ _ _ hgather

/-- The buffer of a slot is the only one of an index. -/
def Owns (a : Assembly) (slot index : Nat) : Prop :=
  ∀ other b, a.buffers[other]? = some b → (b.index = index ↔ other = slot)

/-- It is so of other buffers with the same indices. -/
theorem Owns.of_indices (h : Owns a slot index)
    (hindices : a'.buffers.map Buffer.index = a.buffers.map Buffer.index) : Owns a' slot index := by
  intro other b' hb'
  have hother : (a'.buffers.map Buffer.index)[other]? = (a.buffers.map Buffer.index)[other]? := by
    rw [hindices]
  rw [List.getElem?_map, List.getElem?_map, hb'] at hother
  obtain ⟨b, hb, heq⟩ := Option.map_eq_some_iff.1 hother.symm
  exact heq ▸ h other b hb

/-- The buffer of a signal is the only one of its index when no index is selected twice. -/
theorem owns_of_nodup (hindices : a.buffers.map Buffer.index = signals.map Signal.index)
    (hdistinct : (signals.map Signal.index).Nodup) {slot : Nat} {signal : Signal}
    (hsignal : signals[slot]? = some signal) : Owns a slot signal.index := by
  intro other b hb
  have hother : (signals.map Signal.index)[other]? = some b.index := by
    rw [← hindices, List.getElem?_map, hb]
    rfl
  have hslot : (signals.map Signal.index)[slot]? = some signal.index := by
    rw [List.getElem?_map, hsignal]
    rfl
  obtain ⟨hlt, heq⟩ := List.getElem?_eq_some_iff.1 hother
  constructor
  · intro hsame
    refine (List.getElem?_inj hlt hdistinct).1 ?_
    rw [hother, hslot, hsame]
  · rintro rfl
    exact Option.some.inj (hother.symm.trans hslot)

end

/-! ## Lists -/

/-- What a notification reports of an index. -/
def reported (index : Nat) : Notification → Option (Nat × Value)
  | .value index' time value => if index' = index then some (time, value) else none
  | .tick _ => none

/-- The scalars among events. -/
def scalarOf : Event → Option ScalarEvent
  | .scalar e => some e
  | _ => none

/-- Each time of some events ends before the next one. A time is pending when its list did not
end. -/
def Closes : Option Nat → List Event → Prop
  | pending, [] => pending = none
  | pending, .scalar e :: es => (∀ time ∈ pending, e.time = time) ∧ Closes (some e.time) es
  | pending, .listEnd ended :: es => (∀ time ∈ pending, ended = time) ∧ Closes none es
  | pending, .tick _ :: es => Closes pending es

/-- Nothing needs to be pending. -/
theorem Closes.weaken : ∀ {events : List Event} {pending : Option Nat}, Closes pending events →
    Closes none events
  | [], _, _ => rfl
  | .scalar _ :: _, _, h => ⟨nofun, h.2⟩
  | .listEnd _ :: _, _, h => ⟨nofun, h.2⟩
  | .tick _ :: es, pending, h => by
    have hrest : Closes pending es := h
    exact hrest.weaken

section
variable {t : Types} {active : Active} {slots : List Recipe} {a a' : Assembly} {slot index : Nat}
  {recipe : Recipe} {seen : List Nat} {pending : Option Nat}

/-- What is reported at the end of the list that is pending. -/
def pendingReport (a : Assembly) (slot : Nat) : Option Nat → History Value
  | none => []
  | some time => if slot ∈ a.touched then a.report slot time else []

/-- The list that ends is the one that is pending. -/
theorem pendingReport_eq {time : Nat} (htouched : pending = none → a.touched = [])
    (htime : ∀ time' ∈ pending, time = time') :
    a.pendingReport slot pending = if slot ∈ a.touched then a.report slot time else [] := by
  cases pending with
  | none =>
    rw [htouched rfl]
    rfl
  | some time' =>
    cases htime time' rfl
    rfl

/-- A slot is reported when all source IDs of its recipe were seen. -/
theorem report_counted (hcounted : Counted slots seen a) (h : Fitted t active slots a)
    (hrecipe : slots[slot]? = some recipe) (time : Nat) : ∃ v, a.report slot time =
      if ∀ id ∈ recipe.ids, id ∈ seen then [(time, v)] else [] := by
  obtain ⟨b, hb, -, hcomplete⟩ := hcounted.complete h hrecipe
  refine ⟨b.value, ?_⟩
  rw [report, hb, if_congr hcomplete.symm rfl rfl, Option.filter_some]
  by_cases hknown : b.known = b.required
  · rw [if_pos (decide_eq_true hknown), if_pos hknown]
    rfl
  · rw [if_neg (by rwa [decide_eq_true_eq]), if_neg hknown]
    rfl

/-- Resetting some marks. -/
theorem resetMarks : ∀ (slots : List Nat) (marks : List Bool),
    (slots.foldl (fun marks slot => marks.set slot false) marks).length = marks.length ∧
      ∀ slot < marks.length, (slots.foldl (fun marks slot => marks.set slot false) marks)[slot]? =
        if slot ∈ slots then some false else marks[slot]?
  | [], marks => ⟨rfl, fun slot _ => (if_neg List.not_mem_nil).symm⟩
  | first :: slots, marks => by
    obtain ⟨hlength, hget⟩ := resetMarks slots (marks.set first false)
    rw [List.length_set] at hlength hget
    refine ⟨hlength, fun slot hslot => (hget slot hslot).trans ?_⟩
    by_cases hmem : slot ∈ slots
    · rw [if_pos hmem, if_pos (.tail _ hmem)]
    · rw [if_neg hmem, List.getElem?_set]
      by_cases heq : first = slot
      · rw [if_pos heq, if_pos (heq ▸ hslot), if_pos (heq ▸ .head _)]
      · have hcons : slot ∉ first :: slots := fun h =>
          (List.mem_cons.1 h).elim (fun h => heq h.symm) hmem
        rw [if_neg heq, if_neg hcons]

/-- The end of a list leaves no marks. -/
theorem Marked.listEnd (h : Marked a) (time : Nat) : Marked (a.listEnd time).2 := by
  obtain ⟨hlength, hget⟩ := resetMarks a.touched a.marks
  refine ⟨hlength.trans h.length, fun slot hslot => ?_, .nil⟩
  have hslot' : slot < a.buffers.length := hslot
  have hnone : decide (slot ∈ (a.listEnd time).2.touched) = false :=
    decide_eq_false List.not_mem_nil
  refine (hget slot (h.length ▸ hslot')).trans ?_
  rw [hnone, h.marks slot hslot']
  by_cases hmem : slot ∈ a.touched
  · rw [if_pos hmem]
  · rw [if_neg hmem, decide_eq_false hmem]

/-- Of entries that are there once, one is kept at most. -/
theorem filterMap_single {α : Type} (slot : Nat) {slots : List Nat} (hnodup : slots.Nodup)
    {f : Nat → Option α} (hf : ∀ other, other ≠ slot → f other = none) :
    slots.filterMap f = if slot ∈ slots then (f slot).toList else [] := by
  induction slots with
  | nil => rfl
  | cons first slots ih =>
    obtain ⟨hfirst, hrest⟩ := List.nodup_cons.1 hnodup
    rw [List.filterMap_cons, ih hrest]
    by_cases heq : first = slot
    · subst heq
      rw [if_neg hfirst, if_pos (.head _)]
      cases f first <;> rfl
    · rw [hf first heq]
      dsimp only
      exact if_congr (List.mem_cons.trans (or_iff_right (Ne.symm heq))).symm rfl rfl

/-- The end of a list reports a slot that was touched. -/
theorem listEnd_reported (h : Marked a) (howns : Owns a slot index) (time : Nat) :
    (a.listEnd time).1.filterMap (reported index) =
      if slot ∈ a.touched then a.report slot time else [] := by
  unfold listEnd
  dsimp only
  rw [List.filterMap_filterMap, filterMap_single slot h.nodup]
  · refine if_congr Iff.rfl (congrArg Option.toList ?_) rfl
    cases hb : a.buffers[slot]? with
    | none => rfl
    | some b =>
      rw [Option.bind_some, Option.filter_some]
      by_cases hknown : b.known = b.required
      · rw [if_pos hknown, if_pos (decide_eq_true hknown)]
        exact if_pos ((howns slot b hb).2 rfl)
      · rw [if_neg hknown, if_neg (by rwa [decide_eq_true_eq])]
        rfl
  · intro other hne
    cases hb : a.buffers[other]? with
    | none => rfl
    | some b =>
      rw [Option.bind_some]
      by_cases hknown : b.known = b.required
      · rw [if_pos hknown]
        exact if_neg ((howns other b hb).not.2 hne)
      · rw [if_neg hknown]
        rfl

/-- What is pending is replaced by what a scalar of the same time reports. -/
theorem pendingReport_scalar {e : ScalarEvent} (htouches : Touches (a.writes · e) a a')
    (h : Fitted t active slots a) (h' : Fitted t active slots a') (hcounted : Counted slots seen a)
    (hcounted' : Counted slots (seen ++ scalarIds [.scalar e]) a')
    (hrecipe : slots[slot]? = some recipe) (htouched : pending = none → a.touched = [])
    (htime : ∀ time ∈ pending, e.time = time) (rest : History Value) :
    History.finals (a'.pendingReport slot (some e.time) ++ rest) =
      History.finals (a.pendingReport slot pending ++
        ((if a.writes slot e then a'.report slot e.time else []) ++ rest)) := by
  have hpending : a'.pendingReport slot (some e.time) =
      if slot ∈ a'.touched then a'.report slot e.time else [] := rfl
  rw [pendingReport_eq htouched htime, hpending]
  by_cases hwrites : a.writes slot e
  · rw [if_pos hwrites, if_pos ((htouches.touched slot).2 (.inr hwrites))]
    obtain ⟨v, hreport⟩ := report_counted hcounted h hrecipe e.time
    obtain ⟨v', hreport'⟩ := report_counted hcounted' h' hrecipe e.time
    rw [hreport, hreport']
    by_cases hall : slot ∈ a.touched ∧ ∀ id ∈ recipe.ids, id ∈ seen
    · rw [if_pos hall.1, if_pos hall.2,
        if_pos fun id hid => List.mem_append_left _ (hall.2 id hid)]
      exact (if_pos rfl).symm
    · have hnone : (if slot ∈ a.touched then
          if ∀ id ∈ recipe.ids, id ∈ seen then [(e.time, v)] else [] else []) = [] := by
        by_cases hmem : slot ∈ a.touched
        · rw [if_pos hmem, if_neg fun hids => hall ⟨hmem, hids⟩]
        · rw [if_neg hmem]
      rw [hnone, List.nil_append]
  · have hbuffer := htouches.others slot hwrites
    rw [if_neg hwrites, List.nil_append, if_congr ((htouches.touched slot).trans
      (or_iff_left hwrites)) (show a'.report slot e.time = a.report slot e.time by
        rw [report, report, hbuffer]) rfl]

/-- **How lists are cut does not count.** When each time ends before the next one, the last report
of a slot at each time is that of the scalars, by induction on the events. -/
theorem run_reports (hslots : AllSuit t active slots)
    (hactive : active.Pairwise fun x y => x.1 < y.1) (hrecipe : slots[slot]? = some recipe) :
    ∀ (events : List Event) (a : Assembly) (seen : List Nat) (pending : Option Nat),
      Fitted t active slots a → Counted slots seen a → Marked a → Owns a slot index →
      Closes pending events → (pending = none → a.touched = []) →
      EventsDelivered t active (sourceIdsOf a.dependencies) events →
      ∃ notifications c, a.run events = some (notifications, c) ∧
        History.finals (notifications.filterMap (reported index)) =
          History.finals (a.pendingReport slot pending ++
            reports slot a (events.filterMap scalarOf)) := by
  intro events
  induction events with
  | nil =>
    intro a seen pending _ _ _ _ hcloses _ _
    have hnone : pending = none := hcloses
    subst hnone
    exact ⟨[], a, rfl, rfl⟩
  | cons event events ih =>
    intro a seen pending h hcounted hmarked howns hcloses htouched hevents
    have hevent : ∀ e, event = .scalar e → Delivers t active (sourceIdsOf a.dependencies) e :=
      fun e heq => hevents e (heq ▸ .head _)
    obtain ⟨notifications, a', hconsume, h', hkeys⟩ := consume_total h hslots hactive hevent
    have hcounted' := hcounted.consume h hslots hactive hevent hconsume
    have howns' := howns.of_indices (consume_indices hconsume)
    have hevents' : EventsDelivered t active (sourceIdsOf a'.dependencies) events :=
      sourceIdsOf_congr hkeys ▸ fun e he => hevents e (.tail _ he)
    have hrun : ∀ {more : List Notification} {c : Assembly}, a'.run events = some (more, c) →
        a.run (event :: events) = some (notifications ++ more, c) := by
      intro more c hmore
      rw [run, hconsume]
      show ((a'.run events).bind fun r => some (notifications ++ r.1, r.2)) = _
      rw [hmore]
      rfl
    cases event with
    | tick time =>
      cases hconsume
      obtain ⟨more, c, hmore, hfinals⟩ := ih a _ pending h
        hcounted' hmarked howns hcloses htouched hevents'
      exact ⟨_, c, hrun hmore, hfinals⟩
    | listEnd time =>
      have hpair : a.listEnd time = (notifications, a') := Option.some.inj hconsume
      obtain rfl : (a.listEnd time).1 = notifications := congrArg Prod.fst hpair
      obtain rfl : (a.listEnd time).2 = a' := congrArg Prod.snd hpair
      obtain ⟨htime, hcloses⟩ : (∀ time' ∈ pending, time = time') ∧ Closes none events := hcloses
      obtain ⟨more, c, hmore, hfinals⟩ := ih _ _ none h'
        hcounted' (hmarked.listEnd time) howns' hcloses (fun _ => rfl) hevents'
      refine ⟨_, c, hrun hmore, ?_⟩
      rw [List.filterMap_append, listEnd_reported hmarked howns, pendingReport_eq htouched htime]
      refine History.finals_append_congr _ (hfinals.trans ?_)
      have hrested : (a.listEnd time).2.rested = a.rested := rfl
      rw [← reports_rested slot _ (a.listEnd time).2, hrested, reports_rested]
      rfl
    | scalar e =>
      obtain ⟨htime, hcloses⟩ : (∀ time ∈ pending, e.time = time) ∧
        Closes (some e.time) events := hcloses
      obtain ⟨c, hscalar, hpair⟩ := Option.map_eq_some_iff.1 hconsume
      cases hpair
      have htouches := scalarEvent_touches h hslots hactive (hevent e rfl) hmarked hscalar
      obtain ⟨more, c, hmore, hfinals⟩ := ih a' _
        (some e.time) h' hcounted' htouches.marked howns' hcloses (fun h => by cases h) hevents'
      refine ⟨_, c, hrun hmore, hfinals.trans ?_⟩
      have hcons : (Event.scalar e :: events).filterMap scalarOf =
          e :: events.filterMap scalarOf := rfl
      rw [hcons, reports, hscalar]
      exact pendingReport_scalar htouches h h' hcounted hcounted' hrecipe htouched htime _

/-! ## Times -/

/-- A scalar is for a slot whose recipe has its source ID. -/
theorem Counted.writes_iff (h : Counted slots seen a) (hrecipe : slots[slot]? = some recipe)
    (e : ScalarEvent) : a.writes slot e ↔ e.id ∈ recipe.ids := by
  rw [← List.count_pos_iff, ← h.listed slot recipe e.id hrecipe, List.count_pos_iff, places,
    List.mem_map]
  constructor
  · rintro ⟨d, hd, hslot, hid⟩
    exact ⟨d, hd, Prod.ext hid hslot⟩
  · rintro ⟨d, hd, heq⟩
    exact ⟨d, hd, congrArg Prod.snd heq, congrArg Prod.fst heq⟩

/-- A slot is reported by a scalar of its recipe that completes it, or that finds it complete. -/
theorem reports_iff (hslots : AllSuit t active slots)
    (hactive : active.Pairwise fun x y => x.1 < y.1) (hrecipe : slots[slot]? = some recipe)
    (time : Nat) : ∀ (es : List ScalarEvent) (a : Assembly) (seen : List Nat),
      Fitted t active slots a → Counted slots seen a →
      (∀ e ∈ es, Delivers t active (sourceIdsOf a.dependencies) e) →
      ((∃ v, (time, v) ∈ reports slot a es) ↔ ∃ before e behind, es = before ++ e :: behind ∧
        e.time = time ∧ e.id ∈ recipe.ids ∧
          ∀ id ∈ recipe.ids, id ∈ seen ++ (before ++ [e]).map ScalarEvent.id)
  | [], a, seen, _, _, _ => by
    refine iff_of_false (fun ⟨v, hv⟩ => nomatch hv) ?_
    rintro ⟨before, e, behind, hsplit, -⟩
    exact List.append_ne_nil_of_right_ne_nil _ (List.cons_ne_nil _ _) hsplit.symm
  | e :: es, a, seen, h, hcounted, hevents => by
    have hevent : ∀ e', Event.scalar e = .scalar e' →
        Delivers t active (sourceIdsOf a.dependencies) e' :=
      fun e' heq => by cases heq; exact hevents e (.head _)
    obtain ⟨notifications, a', hconsume, h', hkeys⟩ := consume_total h hslots hactive hevent
    have hcounted' := hcounted.consume h hslots hactive hevent hconsume
    obtain ⟨c, hrun, hpair⟩ := Option.map_eq_some_iff.1 hconsume
    cases hpair
    have hids : seen ++ scalarIds [.scalar e] = seen ++ [e.id] := rfl
    rw [hids] at hcounted'
    have hrest := reports_iff hslots hactive hrecipe time es a' _ h' hcounted'
      (sourceIdsOf_congr hkeys ▸ fun e he => hevents e (.tail _ he))
    obtain ⟨v', hreport⟩ := report_counted hcounted' h' hrecipe e.time
    have hor : ∀ h h' : History Value, (∃ v, (time, v) ∈ h ++ h') ↔
        (∃ v, (time, v) ∈ h) ∨ ∃ v, (time, v) ∈ h' :=
      fun h h' => by simp only [List.mem_append, exists_or]
    rw [reports, hrun]
    dsimp only
    rw [hor, hrest]
    constructor
    · rintro (⟨v, hv⟩ | ⟨before, e', behind, rfl, htime, hid, hall⟩)
      · split at hv
        · next hwrites =>
          rw [hreport] at hv
          split at hv
          · next hall =>
            cases List.mem_singleton.1 hv
            exact ⟨[], e, es, rfl, rfl, (hcounted.writes_iff hrecipe e).1 hwrites, hall⟩
          · cases hv
        · cases hv
      · refine ⟨e :: before, e', behind, rfl, htime, hid, fun id hmem => ?_⟩
        have hseen := hall id hmem
        rwa [List.append_assoc] at hseen
    · rintro ⟨before, e', behind, hsplit, htime, hid, hall⟩
      cases before with
      | nil =>
        cases hsplit
        refine .inl ⟨v', ?_⟩
        have hcomplete : ∀ id ∈ recipe.ids, id ∈ seen ++ [e.id] := hall
        rw [if_pos ((hcounted.writes_iff hrecipe e).2 hid), hreport, if_pos hcomplete, htime]
        exact .head _
      | cons first before =>
        cases hsplit
        refine .inr ⟨before, e', behind, rfl, htime, hid, fun id hmem => ?_⟩
        rw [List.append_assoc]
        exact hall id hmem

/-- The last entry that satisfies a condition. -/
theorem exists_last {α : Type} {p : α → Prop} : ∀ {es : List α}, (∃ e ∈ es, p e) →
    ∃ before e behind, es = before ++ e :: behind ∧ p e ∧ ∀ later ∈ behind, ¬ p later
  | first :: es, h => by
    by_cases hrest : ∃ e ∈ es, p e
    · obtain ⟨before, e, behind, rfl, he, hnone⟩ := exists_last hrest
      exact ⟨first :: before, e, behind, rfl, he, hnone⟩
    · obtain ⟨e, he, hp⟩ := h
      rcases List.mem_cons.1 he with rfl | he
      · exact ⟨[], e, es, rfl, hp, fun later hlater hlast => hrest ⟨later, hlater, hlast⟩⟩
      · exact absurd ⟨e, he, hp⟩ hrest

/-- **A slot is reported at a time when one of its source IDs is written then, and all of them were
seen up to it.** -/
theorem reported_iff (hslots : AllSuit t active slots)
    (hactive : active.Pairwise fun x y => x.1 < y.1) (hrecipe : slots[slot]? = some recipe)
    (h : Fitted t active slots a) (hcounted : Counted slots [] a) {es : List ScalarEvent}
    (hevents : ∀ e ∈ es, Delivers t active (sourceIdsOf a.dependencies) e)
    (htimes : es.Pairwise fun e e' => e.time ≤ e'.time) (time : Nat) :
    (∃ v, (time, v) ∈ reports slot a es) ↔ (∃ e ∈ es, e.time = time ∧ e.id ∈ recipe.ids) ∧
      ∀ id ∈ recipe.ids, ∃ e ∈ es, e.time ≤ time ∧ e.id = id := by
  rw [reports_iff hslots hactive hrecipe time es a [] h hcounted hevents]
  constructor
  · rintro ⟨before, e, behind, rfl, rfl, hid, hall⟩
    refine ⟨⟨e, List.mem_append_right _ (.head _), rfl, hid⟩, fun id hmem => ?_⟩
    obtain ⟨e', he', rfl⟩ := List.mem_map.1 (hall id hmem)
    obtain ⟨-, -, hle⟩ := List.pairwise_append.1 htimes
    rcases List.mem_append.1 he' with he' | he'
    · exact ⟨e', List.mem_append_left _ he', hle e' he' e (.head _), rfl⟩
    · obtain rfl := List.mem_singleton.1 he'
      exact ⟨e', List.mem_append_right _ (.head _), Nat.le_refl _, rfl⟩
  · rintro ⟨hwritten, hall⟩
    obtain ⟨before, e, behind, rfl, ⟨rfl, hid⟩, hnone⟩ := exists_last hwritten
    refine ⟨before, e, behind, rfl, rfl, hid, fun id hmem => ?_⟩
    obtain ⟨e', he', hle, rfl⟩ := hall id hmem
    refine List.mem_map_of_mem ?_
    rcases List.mem_append.1 he' with he' | he'
    · exact List.mem_append_left _ he'
    rcases List.mem_cons.1 he' with rfl | he'
    · exact List.mem_append_right _ (.head _)
    · -- A later scalar of the recipe would be of the same time.
      obtain ⟨-, hbehind, -⟩ := List.pairwise_append.1 htimes
      have hge := (List.pairwise_cons.1 hbehind).1 e' he'
      exact absurd ⟨Nat.le_antisymm hle hge, hmem⟩ (hnone e' he')

end

/-! ## Starts -/

section
variable {t : Types} {recipes : List Recipe} {active : Active} {w w' : Wire} {a : Assembly}

/-- A read starts without marks. -/
theorem prepare_marked {indexed : Bool} {sort : List Dependency → List Dependency}
    {signals : List Signal} (h : prepare t recipes active indexed sort signals w = (.ok a, w')) :
    Marked a ∧ a.touched = [] := by
  obtain ⟨⟨buffers, dependencies⟩, w₁, -, hpure⟩ := Decoder.bind_eq_ok.1 h
  cases hpure
  refine ⟨⟨List.length_map _, fun slot hslot => ?_, .nil⟩, rfl⟩
  rw [List.getElem?_map, List.getElem?_eq_getElem hslot, decide_eq_false List.not_mem_nil]
  rfl

end

end Assembly

end Ondas.Ghw
