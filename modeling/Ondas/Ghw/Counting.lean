import Mathlib.Data.List.Count
import Mathlib.Data.List.Sort
import Ondas.Ghw.Sharing

/-!
# Counting source IDs

`known` of a buffer counts the positions of its recipe whose source ID was seen. The first
dependency of a source ID keeps whether it was, and the first scalar of the ID counts every position
that has it, so that the count is that of the recipe's own IDs (`Assembly.Counted`), also where an
ID is repeated. A buffer is complete when all its IDs were seen, and never counts more
(`assembly_counts`).
-/

namespace Ondas.Ghw

open Library Wire Ondas.Ghw.Types

/-! ## What a walk delivers -/

section
variable {b : Body} {bulk : Bool} {w : Walk} {emissions : List Emission}
  {result : Except Error (Option TimeSpan) × Wire}

/-- All scalars of a walk are delivered, by induction on its steps. -/
theorem walk_delivered (ids : List Nat) (h : Runs (walkStep b bulk) w emissions result) :
    AllDelivered b.types b.active ids emissions := by
  have hone : ∀ w, AllDelivered b.types b.active ids (walkStep b bulk w).1 :=
    walkStep_delivered b bulk
  induction h with
  | @stop w emitted result hstep =>
    have hemitted := hone w
    rwa [hstep] at hemitted
  | @next w w' emitted out result hstep _ ih =>
    have hemitted := hone w
    rw [hstep] at hemitted
    intro emission hmem
    rcases List.mem_append.1 hmem with hmem | hmem
    · exact hemitted emission hmem
    · exact ih emission hmem

end

namespace Assembly

/-- The source IDs of the scalars among some events. -/
def scalarIds (events : List Event) : List Nat :=
  events.filterMap fun event => match event with
    | .scalar event => some event.id
    | _ => none

@[simp] theorem scalarIds_nil : scalarIds [] = [] := rfl

theorem scalarIds_cons (event : Event) (events : List Event) :
    scalarIds (event :: events) = scalarIds [event] ++ scalarIds events := by
  cases event <;> rfl

/-- The positions of slots with their source IDs. -/
def places (ds : List Dependency) : List (Nat × Nat) := ds.map fun d => (d.id, d.slot)

/-- The dependencies have each position of a recipe. The first one of a source ID keeps whether it
was seen, and a buffer counts the positions of its recipe whose IDs were. -/
structure Counted (slots : List Recipe) (seen : List Nat) (a : Assembly) : Prop where
  listed : ∀ (slot : Nat) (recipe : Recipe) (id : Nat), slots[slot]? = some recipe →
    (places a.dependencies).count (id, slot) = recipe.ids.count id
  owners : ∀ id owner, (a.dependencies.filter fun d => decide (d.id = id)).head? = some owner →
    owner.seen = decide (id ∈ seen)
  known : ∀ (slot : Nat) (recipe : Recipe) (b : Buffer), slots[slot]? = some recipe →
    a.buffers[slot]? = some b → b.known = recipe.ids.countP fun id => decide (id ∈ seen)

/-! ## Before the first event -/

section
variable {t : Types} {active : Active} {slots : List Recipe} {a : Assembly} {seen : List Nat}

/-- The places of a recipe in its slot and in others. -/
theorem count_dependencies (recipe : Recipe) (id slot slot' : Nat) :
    (places (recipe.dependencies slot)).count (id, slot') =
      if slot = slot' then recipe.ids.count id else 0 := by
  have hplaces : places (recipe.dependencies slot) = recipe.ids.map fun id => (id, slot) := by
    unfold places Recipe.dependencies
    rw [List.map_map]
    conv_rhs => rw [← List.zipIdx_map_fst 0 recipe.ids, List.map_map]
    rfl
  rw [hplaces]
  split
  · next heq =>
    subst heq
    exact List.count_map_of_injective _ _ (fun _ _ h => (Prod.mk.inj h).1) id
  · next hne =>
    refine List.count_eq_zero.2 fun hmem => ?_
    obtain ⟨_, -, heq⟩ := List.mem_map.1 hmem
    exact hne (Prod.mk.inj heq).2

/-- The places of all slots, by induction on them. -/
theorem count_slotDependencies (id slot : Nat) : ∀ (slots : List Recipe) (start : Nat),
    (places (slotDependencies slots start)).count (id, slot) =
      if slot < start then 0 else (slots[slot - start]?).elim 0 fun recipe => recipe.ids.count id
  | [], start => by split <;> rfl
  | recipe :: slots, start => by
    have hcons : places (slotDependencies (recipe :: slots) start) =
        places (recipe.dependencies start) ++ places (slotDependencies slots (start + 1)) :=
      List.map_append
    rw [hcons, List.count_append, count_dependencies,
      count_slotDependencies id slot slots (start + 1)]
    rcases lt_trichotomy slot start with hlt | rfl | hgt
    · rw [if_neg hlt.ne', if_pos (by omega), if_pos hlt]
    · rw [if_pos rfl, if_pos (Nat.lt_succ_self _), if_neg (Nat.lt_irrefl _), Nat.sub_self]
      rfl
    · rw [if_neg hgt.ne, if_neg (by omega), if_neg (by omega), Nat.zero_add,
        show slot - start = slot - (start + 1) + 1 by omega, List.getElem?_cons_succ]

/-- Nothing is counted before the first event. -/
theorem Fresh.counted (h : Fresh slots a) : Counted slots [] a where
  listed slot recipe id hrecipe := by
    have hplaces : (places a.dependencies).count (id, slot) =
        (places (slotDependencies slots 0)).count (id, slot) :=
      (h.dependencies.map fun d => (d.id, d.slot)).count_eq _
    rw [hplaces, count_slotDependencies, if_neg (Nat.not_lt_zero _), Nat.sub_zero, hrecipe]
    rfl
  owners id owner howner := by
    have hmem := (List.mem_filter.1 (List.mem_of_mem_head? howner)).1
    obtain ⟨⟨recipe, slot⟩, -, hd⟩ := List.mem_flatMap.1 (h.dependencies.mem_iff.1 hmem)
    obtain ⟨⟨id, position⟩, -, rfl⟩ := List.mem_map.1 hd
    rfl
  known slot recipe b hrecipe hb := by
    rw [h.known b (List.mem_of_getElem? hb)]
    exact (List.countP_eq_zero.2 fun id _ hseen =>
      absurd (of_decide_eq_true hseen) List.not_mem_nil).symm

/-! ## Events -/

/-- The places of the dependencies of one source ID in a slot. -/
theorem count_places {id slot : Nat} {below equal above : List Dependency}
    (hparted : Parted Dependency.id id a.dependencies below equal above) :
    (places a.dependencies).count (id, slot) = equal.countP fun d => d.slot == slot := by
  have hnone : ∀ ds : List Dependency, (∀ d ∈ ds, d.id ≠ id) →
      (places ds).count (id, slot) = 0 := by
    intro ds hds
    refine List.count_eq_zero.2 fun hmem => ?_
    obtain ⟨d, hd, heq⟩ := List.mem_map.1 hmem
    exact hds d hd (Prod.mk.inj heq).1
  have hequal : (places equal).count (id, slot) = equal.countP fun d => d.slot == slot := by
    unfold places
    rw [List.count, List.countP_map]
    refine List.countP_congr fun d hd => ?_
    simp [hparted.equal d hd]
  rw [hparted.eq, places, List.map_append, List.map_append, List.count_append, List.count_append]
  show (places below).count _ + ((places equal).count _ + (places above).count _) = _
  rw [hnone below fun d hd => (hparted.below d hd).ne,
    hnone above fun d hd => (hparted.above d hd).ne',
    hequal, Nat.zero_add, Nat.add_zero]

/-- One more source ID among those that were seen. -/
theorem countP_seen (ids : List Nat) (id : Nat) :
    (ids.countP fun key => decide (key ∈ seen ++ [id])) =
      (ids.countP fun key => decide (key ∈ seen)) + if id ∈ seen then 0 else ids.count id := by
  have hmem : ∀ key, key ∈ seen ++ [id] ↔ key ∈ seen ∨ key = id := by
    intro key
    rw [List.mem_append, List.mem_singleton]
  split
  · next hseen =>
    refine List.countP_congr fun key _ => ?_
    rw [decide_eq_true_eq, decide_eq_true_eq, hmem]
    exact ⟨fun h => h.elim (fun hkey => hkey) (· ▸ hseen), .inl⟩
  · next hunseen =>
    induction ids with
    | nil => rfl
    | cons key ids ih =>
      rw [List.countP_cons, List.countP_cons, List.count_cons, ih]
      by_cases heq : key = id
      · subst heq
        rw [if_pos (decide_eq_true ((hmem key).2 (.inr rfl))), if_neg (by simpa using hunseen),
          if_pos (beq_self_eq_true key)]
        omega
      · have hsame : decide (key ∈ seen ++ [id]) = decide (key ∈ seen) := by
          rw [decide_eq_decide, hmem]
          exact ⟨fun h => h.resolve_right heq, .inl⟩
        rw [hsame, if_neg (show ¬(key == id) = true by simpa using heq), Nat.add_zero]
        omega

/-- The count does not see source IDs that no recipe has. -/
theorem Counted.miss (h : Counted slots seen a) {id : Nat} {below above : List Dependency}
    (hparted : Parted Dependency.id id a.dependencies below [] above) :
    Counted slots (seen ++ [id]) a where
  listed := h.listed
  owners key owner howner := by
    have hne : key ≠ id := by
      rintro rfl
      rw [hparted.filter_equal] at howner
      cases howner
    rw [h.owners key owner howner, decide_eq_decide, List.mem_append, List.mem_singleton]
    exact ⟨.inl, fun hmem => hmem.resolve_right hne⟩
  known slot recipe b hrecipe hb := by
    have hzero : recipe.ids.count id = 0 := by
      rw [← h.listed slot recipe id hrecipe, count_places hparted]
      rfl
    rw [h.known slot recipe b hrecipe hb, countP_seen, hzero, ite_self, Nat.add_zero]

/-- The first scalar of a source ID counts each position that has it, and the others none. -/
theorem Counted.hit (h : Counted slots seen a) {id : Nat} {below others above : List Dependency}
    {owner : Dependency}
    (hparted : Parted Dependency.id id a.dependencies below (owner :: others) above) {a' : Assembly}
    (hall : UpdatedAll (!owner.seen) ({ owner with seen := true } :: others)
      { a with dependencies := below ++ ({ owner with seen := true } :: others ++ above) } a') :
    Counted slots (seen ++ [id]) a' := by
  have hdependencies : a'.dependencies =
      below ++ ({ owner with seen := true } :: others ++ above) := hall.dependencies
  have hplaces : places a'.dependencies = places a.dependencies := by
    rw [hdependencies, hparted.eq]
    simp only [places, List.map_append, List.map_cons]
  have howner : owner.id = id := hparted.equal owner (.head _)
  have hseen : owner.seen = decide (id ∈ seen) :=
    h.owners id owner (by rw [hparted.filter_equal]; rfl)
  refine ⟨fun slot recipe key hrecipe => ?_, fun key first hfirst => ?_,
    fun slot recipe b' hrecipe hb' => ?_⟩
  · rw [hplaces]
    exact h.listed slot recipe key hrecipe
  · by_cases heq : key = id
    · subst heq
      have hparted' : Parted Dependency.id key a'.dependencies below
          ({ owner with seen := true } :: others) above := by
        refine ⟨hdependencies, hparted.below, fun d hd => ?_, hparted.above⟩
        rcases List.mem_cons.1 hd with rfl | hd
        · exact howner
        · exact hparted.equal d (.tail _ hd)
      rw [hparted'.filter_equal] at hfirst
      obtain rfl := Option.some.inj hfirst
      exact (decide_eq_true (List.mem_append_right _ (.head _))).symm
    · have hfilter : (a'.dependencies.filter fun d => decide (d.id = key)) =
          a.dependencies.filter fun d => decide (d.id = key) := by
        have hskip : ∀ (d : Dependency) (ds : List Dependency), d.id = id →
            ((d :: ds).filter fun d => decide (d.id = key)) = ds.filter fun d =>
            decide (d.id = key) := by
          intro d ds hd
          refine List.filter_cons_of_neg ?_
          rw [hd, decide_eq_true_eq]
          exact fun h => heq h.symm
        rw [hdependencies, hparted.eq, List.cons_append, List.cons_append, List.filter_append,
          List.filter_append, hskip owner _ howner,
          hskip { owner with seen := true } _ howner]
      rw [hfilter] at hfirst
      rw [h.owners key first hfirst, decide_eq_decide, List.mem_append, List.mem_singleton]
      exact ⟨.inl, fun hmem => hmem.resolve_right heq⟩
  · obtain ⟨b, hb, -, hknown⟩ := hall.buffers slot b' hb'
    have hcount : (({ owner with seen := true } :: others).countP fun d => d.slot == slot) =
        recipe.ids.count id := by
      rw [← h.listed slot recipe id hrecipe, count_places hparted, List.countP_cons,
        List.countP_cons]
    rw [hknown, h.known slot recipe b hrecipe hb, countP_seen, hcount, hseen]
    by_cases hmem : id ∈ seen
    · rw [if_pos hmem, if_neg (by simpa using hmem)]
    · rw [if_neg hmem, if_pos (by simpa using hmem)]

/-- What events are counted, an event more. -/
theorem Counted.consume (hcounted : Counted slots seen a) (h : Fitted t active slots a)
    (hslots : AllSuit t active slots) (hactive : active.Pairwise fun x y => x.1 < y.1)
    {event : Event}
    (hevent : ∀ e, event = .scalar e → Delivers t active (sourceIdsOf a.dependencies) e)
    {notifications : List Notification} {a' : Assembly}
    (hconsume : a.consume event = some (notifications, a')) :
    Counted slots (seen ++ scalarIds [event]) a' := by
  cases event with
  | tick time =>
    cases hconsume
    rwa [show scalarIds [.tick time] = [] from rfl, List.append_nil]
  | listEnd time =>
    cases hconsume
    rw [show scalarIds [.listEnd time] = [] from rfl, List.append_nil]
    exact ⟨hcounted.listed, hcounted.owners, hcounted.known⟩
  | scalar e =>
    have hdelivers := hevent e rfl
    have hstep := scalarEvent_step h hslots hactive hdelivers
    obtain ⟨c, hscalar, hpair⟩ := Option.map_eq_some_iff.1 hconsume
    cases hpair
    rw [hscalar] at hstep
    generalize hresult : some a' = result at hstep
    cases hstep with
    | missed hparted =>
      cases hresult
      exact hcounted.miss hparted
    | hit hparted =>
      obtain ⟨a'', hrun, hall, -⟩ := h.hit hslots hdelivers hparted
      cases hresult.trans hrun
      exact hcounted.hit hparted hall

/-- **Counting is exact.** Events that are delivered are consumed, and count the source IDs of their
scalars, by induction on them. -/
theorem run_counted (hslots : AllSuit t active slots)
    (hactive : active.Pairwise fun x y => x.1 < y.1)
    (events : List Event) : ∀ (a : Assembly) (seen : List Nat), Fitted t active slots a →
    Counted slots seen a → EventsDelivered t active (sourceIdsOf a.dependencies) events →
    ∃ notifications c, a.run events = some (notifications, c) ∧ Fitted t active slots c ∧
      Counted slots (seen ++ scalarIds events) c := by
  induction events with
  | nil => exact fun a seen h hcounted _ => ⟨[], a, rfl, h, (List.append_nil seen).symm ▸ hcounted⟩
  | cons event events ih =>
    intro a seen h hcounted hevents
    have hevent : ∀ e, event = .scalar e → Delivers t active (sourceIdsOf a.dependencies) e :=
      fun e heq => hevents e (heq ▸ .head _)
    obtain ⟨notifications, b, hb, hfitted, hkeys⟩ := consume_total h hslots hactive hevent
    obtain ⟨more, c, hc, hlast, hcounted'⟩ := ih b _ hfitted
      (hcounted.consume h hslots hactive hevent hb)
      (sourceIdsOf_congr hkeys ▸ fun e he => hevents e (.tail _ he))
    refine ⟨notifications ++ more, c, ?_, hlast, ?_⟩
    · rw [run, hb]
      show ((b.run events).bind fun r => some (notifications ++ r.1, r.2)) = _
      rw [hc]
      rfl
    · rw [scalarIds_cons, ← List.append_assoc]
      exact hcounted'

/-! ## Preparation -/

/-- A recipe that suits has a buffer. -/
theorem new_total {recipe : Recipe} {storage : Storage} {literals : List Nat} {wkt : Nat}
    (h : recipe.Suits t active storage literals wkt) (index : Nat) (w : Wire) :
    ∃ b, Buffer.new t index recipe w = (.ok b, w) := by
  have hwidth : ∃ width, Buffer.widthOf recipe.encoding = some width := by
    rcases h.kind with ⟨-, -, hencoding⟩ | ⟨-, -, hencoding⟩
    · rw [hencoding]
      split <;> exact ⟨_, rfl⟩
    · rw [hencoding]
      exact ⟨_, rfl⟩
  obtain ⟨width, hwidth⟩ := hwidth
  unfold Buffer.new
  rw [h.scalar]
  dsimp only
  rw [hwidth]
  exact ⟨_, rfl⟩

/-- The signals of a source can be selected, by induction on them. -/
theorem gather_total {recipes : List Recipe} (hrecipes : AllSuit t active recipes) (w : Wire)
    (signals : List Signal) : ∀ (buffers : List Buffer) (dependencies : List Dependency),
    (∀ signal ∈ signals, signal.index < recipes.length) →
    ∃ result, gather t recipes signals buffers dependencies w = (.ok result, w) := by
  induction signals with
  | nil => exact fun buffers dependencies _ => ⟨_, rfl⟩
  | cons signal signals ih =>
    intro buffers dependencies hsignals
    obtain ⟨recipe, hrecipe⟩ : ∃ recipe, recipes[signal.index]? = some recipe :=
      ⟨_, List.getElem?_eq_getElem (hsignals signal (.head _))⟩
    obtain ⟨storage, literals, wkt, hsuits⟩ := hrecipes _ (List.mem_of_getElem? hrecipe)
    obtain ⟨b, hb⟩ := new_total hsuits signal.index w
    obtain ⟨result, hrest⟩ := ih (buffers ++ [b])
      (dependencies ++ recipe.dependencies buffers.length)
      (fun signal hmem => hsignals signal (.tail _ hmem))
    refine ⟨result, ?_⟩
    unfold gather
    rw [hrecipe]
    exact Decoder.bind_eq_ok.2 ⟨b, w, hb, hrest⟩

/-- A read of signals of a source can be prepared. -/
theorem prepare_total {recipes : List Recipe} (hrecipes : AllSuit t active recipes) (indexed : Bool)
    (sort : List Dependency → List Dependency) {signals : List Signal}
    (hsignals : ∀ signal ∈ signals, signal.index < recipes.length) (w : Wire) :
    ∃ a, prepare t recipes active indexed sort signals w = (.ok a, w) := by
  obtain ⟨result, hgather⟩ := gather_total hrecipes w signals [] [] hsignals
  exact ⟨_, Decoder.bind_eq_ok.2 ⟨result, w, hgather, rfl⟩⟩

/-! ## Values -/

/-- The positions of a vector have a digit. -/
theorem Fitted.position_lt (h : Fitted t active slots a) (hslots : AllSuit t active slots)
    {d : Dependency} (hd : d ∈ a.dependencies) :
    ∃ b, a.buffers[d.slot]? = some b ∧ (b.vector = true → d.position < b.digits.length) := by
  obtain ⟨recipe, hrecipe, hposition⟩ := h.positions d hd
  obtain ⟨storage, literals, wkt, hsuits⟩ := hslots recipe (List.mem_of_getElem? hrecipe)
  obtain ⟨b, hb, hof⟩ := exists_buffer h.buffers hrecipe
  refine ⟨b, hb, fun hvector => ?_⟩
  have hdigits := hof.digits
  rcases hsuits.kind with ⟨hscalar, -, -⟩ | ⟨-, -, hencoding⟩
  · rw [hof.vector, hscalar] at hvector
    cases hvector
  · rw [hencoding] at hdigits
    rw [← Option.some.inj hdigits]
    exact (List.getElem?_eq_some_iff.1 hposition).1

/-- An ordinal that is delivered has a digit in the alphabet of each buffer it goes to. -/
theorem Fitted.ordinal_lt (h : Fitted t active slots a) (hslots : AllSuit t active slots)
    {event : ScalarEvent} {ordinal : UInt8} {ids : List Nat} (hevent : Delivers t active ids event)
    (hvalue : event.value = .ordinal ordinal) {d : Dependency} (hd : d ∈ a.dependencies)
    (hid : d.id = event.id) {b : Buffer} (hb : a.buffers[d.slot]? = some b) (hwkt : b.wkt ≠ 0) :
    ordinal.toNat < (Buffer.alphabet b.wkt).length := by
  obtain ⟨recipe, hrecipe, hposition⟩ := h.positions d hd
  obtain ⟨storage, literals, wkt, hsuits⟩ := hslots recipe (List.mem_of_getElem? hrecipe)
  obtain ⟨b', hb', hof⟩ := exists_buffer h.buffers hrecipe
  cases hb.symm.trans hb'
  obtain ⟨type, hrank, hstored⟩ := hevent.stored
  have hstores := hsuits.stores (List.mem_of_getElem? hposition) (hid ▸ List.mem_of_getElem? hrank)
    hstored
  rw [hvalue] at hstores
  rw [hsuits.wkt_eq hof] at hwkt ⊢
  rw [hsuits.fits.alphabet hwkt]
  cases hstores with
  | ordinal _ hlt => exact hlt

/-- A buffer never counts more than it needs, and as much when all its source IDs were seen. -/
theorem Counted.complete (h : Counted slots seen a) (hfitted : Fitted t active slots a) {slot : Nat}
    {recipe : Recipe} (hrecipe : slots[slot]? = some recipe) :
    ∃ b, a.buffers[slot]? = some b ∧ b.known ≤ b.required ∧
      (b.known = b.required ↔ ∀ id ∈ recipe.ids, id ∈ seen) := by
  obtain ⟨b, hb, hof⟩ := exists_buffer hfitted.buffers hrecipe
  refine ⟨b, hb, ?_, ?_⟩
  · rw [h.known slot recipe b hrecipe hb, hof.required]
    exact List.countP_le_length
  · rw [h.known slot recipe b hrecipe hb, hof.required, List.countP_eq_length]
    exact forall₂_congr fun id _ => decide_eq_true_iff

/-! ## Sections -/

/-- What holds of an assembly after some events: its dependencies are listed and inside, ordinals
have a digit, and a buffer is complete when all source IDs of its recipe were seen. -/
structure Exact (d : Declarations) (signals : List Signal) (events : List Event) (c : Assembly) :
    Prop where
  listed : ∀ dependency ∈ c.dependencies, ∃ type, (dependency.id, type) ∈ d.active
  positions : ∀ dependency ∈ c.dependencies, ∃ b, c.buffers[dependency.slot]? = some b ∧
    (b.vector = true → dependency.position < b.digits.length)
  ordinals : ∀ event ordinal, .scalar event ∈ events → event.value = .ordinal ordinal →
    ∀ dependency ∈ c.dependencies, dependency.id = event.id →
      ∀ b, c.buffers[dependency.slot]? = some b → b.wkt ≠ 0 →
        ordinal.toNat < (Buffer.alphabet b.wkt).length
  counted : ∀ (slot : Nat) (signal : Signal), signals[slot]? = some signal →
    ∃ recipe b, d.recipes[signal.index]? = some recipe ∧ c.buffers[slot]? = some b ∧
      b.known ≤ b.required ∧ (b.known = b.required ↔ ∀ id ∈ recipe.ids, id ∈ scalarIds events)

end

/-- A read of signals of an accepted section, as it is prepared for them. -/
structure Prepared (t : Types) (d : Declarations) (signals : List Signal) (slots : List Recipe)
    (a : Assembly) : Prop where
  recipes : List.Forall₂ (fun signal recipe => d.recipes[signal.index]? = some recipe) signals slots
  suit : AllSuit t d.active slots
  sorted : d.active.Pairwise fun x y => x.1 < y.1
  fitted : Fitted t d.active slots a
  fresh : Fresh slots a

/-- Any signals of an accepted section can be selected. -/
theorem read_prepared {strings : List String} {t : Types} {w₀ w₁ : Wire}
    (hparse : Types.parse strings w₀ = (.ok t, w₁)) {d : Declarations} {w w' : Wire}
    (hread : Declarations.read t w = (.ok d, w')) {sort : List Dependency → List Dependency}
    (hsort : Sorts sort) {signals : List Signal}
    (hsignals : ∀ signal ∈ signals, signal.index < d.recipes.length) (indexed : Bool) (w₂ : Wire) :
    ∃ a slots, prepare t d.recipes d.active indexed sort signals w₂ = (.ok a, w₂) ∧
      Prepared t d signals slots a := by
  have ht := Types.parse_wellFormed strings _ _ _ hparse
  have hmarked := Types.parse_marked strings _ _ _ hparse
  obtain ⟨leaves, m, hleaves, hm, hvars, hrecipes, hactive⟩ := read_mapped ht hread
  have hshared := hm.shared hvars hrecipes
  have hsuit := hshared.askedBy.suits ht hmarked hm hactive
  obtain ⟨a, hprepare⟩ := prepare_total hsuit indexed sort hsignals w₂
  obtain ⟨slots, hslots, hfitted, hfresh⟩ := prepare_fitted hsort hprepare
  refine ⟨a, slots, hprepare, hslots, ?_, ?_, hfitted, hfresh⟩
  · exact fun recipe hmem => hsuit recipe (slots_mem hslots recipe hmem)
  · rw [hactive]
    exact hm.table.intoActive_sorted t

/-- **Values are assembled inside their buffers and counted exactly.** Any signals of an accepted
section can be selected, and the consumer takes any part of what a walk delivers for them without an
index outside a list: the source IDs are in the active table, the positions of vectors and the
ordinals have digits, and a buffer is complete exactly when each source scalar of its recipe was
seen. So it is for any other events with a value of the active type for each scalar. -/
theorem assembly_counts {strings : List String} {t : Types} {w₀ w₁ : Wire}
    (hparse : Types.parse strings w₀ = (.ok t, w₁)) {d : Declarations} {w w' : Wire}
    (hread : Declarations.read t w = (.ok d, w')) {sort : List Dependency → List Dependency}
    (hsort : Sorts sort) {signals : List Signal}
    (hsignals : ∀ signal ∈ signals, signal.index < d.recipes.length) (indexed : Bool) (w₂ : Wire) :
    ∃ a, prepare t d.recipes d.active indexed sort signals w₂ = (.ok a, w₂) ∧
      (∀ stop bulk walk emissions result,
        Runs (walkStep ⟨t, d.active, stop⟩ bulk) walk emissions result →
        ∀ events rest, emissions.map Emission.event = events ++ rest →
          ∃ notifications c, a.run events = some (notifications, c) ∧ Exact d signals events c) ∧
      ∀ events, EventsDelivered t d.active (sourceIdsOf a.dependencies) events →
        ∃ notifications c, a.run events = some (notifications, c) ∧ Exact d signals events c := by
  obtain ⟨a, slots, hprepare, hslots, hslotsSuit, hsorted, hfitted, hfresh⟩ :=
    read_prepared hparse hread hsort hsignals indexed w₂
  have hall : ∀ events, EventsDelivered t d.active (sourceIdsOf a.dependencies) events →
      ∃ notifications c, a.run events = some (notifications, c) ∧ Exact d signals events c := by
    intro events hevents
    obtain ⟨notifications, c, hrun, hlast, hcounted⟩ :=
      run_counted hslotsSuit hsorted events a [] hfitted hfresh.counted hevents
    refine ⟨notifications, c, hrun, fun dependency => hlast.listed hslotsSuit,
      fun dependency => hlast.position_lt hslotsSuit, ?_, fun slot signal hsignal => ?_⟩
    · intro event ordinal hmem hvalue dependency hd hid b hb hwkt
      exact hlast.ordinal_lt hslotsSuit (hevents event hmem) hvalue hd hid hb hwkt
    · obtain ⟨recipe, hget, hrecipe⟩ := forall₂_getElem? hslots hsignal
      obtain ⟨b, hb, hle, hiff⟩ := hcounted.complete hlast hget
      exact ⟨recipe, b, hrecipe, hb, hle, hiff⟩
  refine ⟨a, hprepare, fun stop bulk walk emissions result hruns events rest hsplit => ?_, hall⟩
  refine hall events fun event hmem => ?_
  have hdelivered := walk_delivered (sourceIdsOf a.dependencies) hruns
  obtain ⟨emission, hemission, heq⟩ := List.mem_map.1 (hsplit ▸ List.mem_append_left rest hmem)
  exact hdelivered emission hemission event heq

/-- The stable sort by source IDs. -/
def byId (ds : List Dependency) : List Dependency := ds.insertionSort fun d d' => d.id ≤ d'.id

/-- It is such a sort. -/
theorem byId_sorts : Sorts byId where
  perm ds := ds.perm_insertionSort _
  sorted ds :=
    have : Std.Total fun d d' : Dependency => d.id ≤ d'.id := ⟨fun _ _ => Nat.le_total _ _⟩
    have : IsTrans Dependency fun d d' => d.id ≤ d'.id := ⟨fun _ _ _ => Nat.le_trans⟩
    ds.pairwise_insertionSort _

/-- The strings of `vectorFile`. -/
def vectorStrings : List String := ["", "integer", "'0'", "'1'", "bit", "bits", "a"]

/-- A type table with a bit, which is marked, and a vector of three of them. -/
def vectorFile : Wire :=
  ⟨[84, 89, 80, 0, 0, 0, 0, 0, 4, 0, 0, 0, 25, 1, 22, 4, 2, 2, 3, 31, 5, 2, 1, 1, 35, 5, 3, 25, 0,
    2, 0, 87, 75, 84, 0, 0, 0, 0, 0, 2, 2, 0, 72, 73, 69, 0], none, 0, 46, false, 0, 0, 0,
    fun _ => 1⟩

/-- A hierarchy section with an object of the vector, whose first and last bit have one source
ID. -/
def vectorSection : Wire :=
  ⟨[0, 0, 0, 0, 0, 0, 0, 0, 1, 0, 0, 0, 2, 0, 0, 0, 16, 6, 4, 1, 2, 1, 0], none, 0, 23, false, 0, 0,
    0, fun _ => 1⟩

/-- A scalar of the repeated ID fills two positions of the vector and counts twice, so that the
vector lacks one digit. -/
theorem assembly_counts_vector :
    let bus : Signal := ⟨0, 0, false, .bits 3, .bits 3, 0⟩
    let first : List Event := [.scalar ⟨1, 0, 0, 0, .ordinal 1, false, noRoute⟩]
    ∃ t d w₁ w' a notifications c b,
      Types.parse vectorStrings vectorFile = (.ok t, w₁) ∧
      Declarations.read t vectorSection = (.ok d, w') ∧
      prepare t d.recipes d.active false byId [bus] vectorSection = (.ok a, vectorSection) ∧
      a.run first = some (notifications, c) ∧ Exact d [bus] first c ∧ c.buffers[0]? = some b ∧
      (b.known, b.required) = (2, 3) ∧
      c.dependencies.map (fun dependency => (dependency.id, dependency.position)) =
        [(1, 0), (1, 2), (2, 1)] ∧
      scalarIds first = [1] := by
  intro bus first
  have hrun : ((Types.parse vectorStrings vectorFile).1.toOption.bind fun t =>
      (Declarations.read t vectorSection).1.toOption.map fun d =>
        (d.active, d.recipes.length)) = some ([(1, 1), (2, 1)], 1) := by decide +kernel
  have hscalar : ((Types.parse vectorStrings vectorFile).1.toOption.bind fun t => t.scalar 1) =
      some (.b2, [2, 3], 2) := by decide +kernel
  have hcounts : ((Types.parse vectorStrings vectorFile).1.toOption.bind fun t =>
      (Declarations.read t vectorSection).1.toOption.bind fun d =>
        (prepare t d.recipes d.active false byId [bus] vectorSection).1.toOption.bind fun a =>
          (a.run first).map fun result => (result.2.buffers.map fun b => (b.known, b.required),
            result.2.dependencies.map fun dependency => (dependency.id, dependency.position))) =
      some ([(2, 3)], [(1, 0), (1, 2), (2, 1)]) := by decide +kernel
  obtain ⟨t, ht, hrun⟩ := Option.bind_eq_some_iff.1 hrun
  obtain ⟨w₁, hparse⟩ := Decoder.exists_ok ht
  obtain ⟨d, hd, hrun⟩ := Option.map_eq_some_iff.1 hrun
  obtain ⟨w', hread⟩ := Decoder.exists_ok hd
  obtain ⟨hactive, hlength⟩ := Prod.mk.inj hrun
  rw [ht] at hscalar
  have hsignals : ∀ signal ∈ [bus], signal.index < d.recipes.length := by
    intro signal hmem
    obtain rfl := List.mem_singleton.1 hmem
    rw [hlength]
    exact Nat.one_pos
  obtain ⟨a, hprepare, -, hall⟩ :=
    assembly_counts hparse hread byId_sorts hsignals false vectorSection
  have hevents : EventsDelivered t d.active (sourceIdsOf a.dependencies) first := by
    intro event hmem
    cases List.mem_singleton.1 hmem
    refine ⟨⟨1, ?_, ⟨.b2, [2, 3], 2, hscalar, .ordinal rfl (by decide)⟩⟩, .inl rfl⟩
    rw [hactive]
    rfl
  obtain ⟨notifications, c, hconsumed, hexact⟩ := hall _ hevents
  have hlast : (c.buffers.map fun b => (b.known, b.required), c.dependencies.map fun dependency =>
      (dependency.id, dependency.position)) = ([(2, 3)], [(1, 0), (1, 2), (2, 1)]) := by
    rw [ht, Option.bind_some, hd, Option.bind_some, hprepare] at hcounts
    have hcounts' : (a.run first).map _ = some _ := hcounts
    rw [hconsumed] at hcounts'
    exact Option.some.inj hcounts'
  obtain ⟨hbuffers, hplaces⟩ := Prod.mk.inj hlast
  obtain ⟨b, hb, hknown⟩ := List.map_eq_singleton_iff.1 hbuffers
  exact ⟨t, d, w₁, w', a, notifications, c, b, hparse, hread, hprepare, hconsumed, hexact,
    by rw [hb]; rfl, hknown, hplaces, rfl⟩

end Assembly

end Ondas.Ghw
