import Ondas.Ghw.Assembly

/-!
# Recipes in slots

A read has a slot with a buffer for each selected signal. What a recipe needs for its values to be
assembled is `Recipe.Suits`: its type has a marker that fits, its encoding is that of its scalars or
of its vector, and what is delivered for its source IDs is stored as that type is. Recipes of an
accepted section do (`Mapped.suits`), and then no update goes outside a list
(`Recipe.Suits.update`).

`Assembly.Fitted` says that the buffers of an assembly are those of the recipes in its slots and
that its dependencies are theirs. The ranges that the consumer looks up have all dependencies of a
source ID (`Assembly.Fitted.hits`).
-/

namespace Ondas.Ghw

open Library Wire Ondas.Ghw.Types

/-! ## Recipes -/

/-- What the assembly of a recipe rests on. -/
structure Recipe.Suits (t : Types) (active : Active) (recipe : Recipe) (storage : Storage)
    (literals : List Nat) (wkt : Nat) : Prop where
  scalar : t.scalar recipe.scalarType = some (storage, literals, wkt)
  fits : Fits storage literals wkt
  ordinals : literals.length ≤ 256
  kind : recipe.vector = false ∧ recipe.ids.length = 1 ∧
        recipe.encoding =
          (if storage == .f64 then .real else .bits (Mapper.width (storage, literals, wkt))) ∨
      recipe.vector = true ∧ (wkt = 2 ∨ wkt = 3) ∧ recipe.encoding = .bits recipe.ids.length
  listed : ∀ id ∈ recipe.ids, ∃ type, (id, type) ∈ active
  stored : ∀ id ∈ recipe.ids, ∀ type, (id, type) ∈ active → ∃ literals' wkt',
    t.scalar type = some (storage, literals', wkt') ∧ literals'.length = literals.length

/-- A buffer of a recipe. -/
structure Buffer.Of (t : Types) (recipe : Recipe) (b : Buffer) : Prop where
  wkt : ∃ storage literals, t.scalar recipe.scalarType = some (storage, literals, b.wkt)
  vector : b.vector = recipe.vector
  digits : Buffer.widthOf recipe.encoding = some b.digits.length
  required : b.required = recipe.ids.length

section
variable {t : Types} {active : Active} {recipe : Recipe} {storage : Storage} {literals : List Nat}
  {wkt : Nat} {b b' : Buffer} {position : Nat} {value : Scalar} {first : Bool}

/-- A number of k bits takes no more than k digits. -/
theorem bitLength_le {n k : Nat} (h : n < 2 ^ k) : Mapper.bitLength n ≤ k := by
  unfold Mapper.bitLength
  split
  · exact Nat.zero_le _
  · next hne => exact (Nat.log2_lt hne).2 h

/-- The digits of a scalar without a marker fit a shift. -/
theorem width_le (h : literals.length ≤ 256) : Mapper.width (storage, literals, wkt) ≤ 64 := by
  have hbits : Mapper.bitLength (literals.length - 1) ≤ 64 :=
    bitLength_le ((Nat.sub_le _ _).trans_lt (h.trans_lt (by decide)))
  unfold Mapper.width
  cases storage <;> dsimp only
  case b2 | e8 =>
    split
    · decide
    · exact max_le (by decide) hbits
  all_goals decide

/-- The one digit of a scalar with a marker. -/
theorem width_marked (hstorage : storage.isEnum = true) (hwkt : wkt ≠ 0) :
    Mapper.width (storage, literals, wkt) = 1 := by
  unfold Mapper.width
  cases storage <;> first | exact if_pos hwkt | cases hstorage

/-- A marker is given to enumerations only. -/
theorem Types.Fits.isEnum (h : Fits storage literals wkt) (hwkt : wkt ≠ 0) :
    storage.isEnum = true := by
  rcases h.cases with rfl | ⟨-, rfl, -⟩ | ⟨-, rfl, -⟩
  · exact absurd rfl hwkt
  · rfl
  · rfl

/-- The alphabet of a marker has a digit for each literal. -/
theorem Types.Fits.alphabet (h : Fits storage literals wkt) (hwkt : wkt ≠ 0) :
    (Buffer.alphabet wkt).length = literals.length := by
  rcases h.cases with rfl | ⟨rfl | rfl, -, hlength⟩ | ⟨rfl, -, hlength⟩
  · exact absurd rfl hwkt
  · exact hlength.symm
  · exact hlength.symm
  · exact hlength.symm

/-! ## Updates -/

/-- What an update leaves as it is, and what it counts. -/
structure Updated (first : Bool) (b b' : Buffer) : Prop where
  index : b'.index = b.index
  length : b'.digits.length = b.digits.length
  required : b'.required = b.required
  known : b'.known = b.known + if first then 1 else 0
  wkt : b'.wkt = b.wkt
  vector : b'.vector = b.vector

/-- Digits are written into a buffer without a change of its shape. -/
theorem setBits_updated {bits : Nat} (h : b.setBits bits = some b') : Updated false b b' := by
  unfold Buffer.setBits at h
  split at h
  · cases h
  · cases h
    exact ⟨rfl, List.length_mapIdx, rfl, rfl, rfl, rfl⟩

/-- An update is one of the buffer with its count. -/
theorem update_counted : b.update position value first =
    Buffer.update (if first then { b with known := b.known + 1 } else b) position value false := rfl

/-- An update fills positions of a buffer without a change of its shape. -/
theorem update_updated (h : b.update position value first = some b') : Updated first b b' := by
  have hplain : ∀ b : Buffer, b.update position value false = some b' → Updated false b b' := by
    intro b h
    cases value with
    | real bits =>
      cases h
      exact ⟨rfl, rfl, rfl, rfl, rfl, rfl⟩
    | integer value => exact setBits_updated h
    | ordinal ordinal =>
      unfold Buffer.update at h
      rw [if_neg Bool.false_ne_true] at h
      dsimp only at h
      by_cases hwkt : b.wkt = 0
      · rw [if_neg (not_not.2 hwkt)] at h
        exact setBits_updated h
      · rw [if_pos hwkt] at h
        cases hdigit : (Buffer.alphabet b.wkt)[ordinal.toNat]? with
        | none => rw [hdigit] at h; cases h
        | some digit =>
          rw [hdigit] at h
          dsimp only at h
          by_cases hlt : (if b.vector then position else 0) < b.digits.length
          · rw [if_pos hlt] at h
            cases h
            exact ⟨rfl, List.length_set, rfl, rfl, rfl, rfl⟩
          · rw [if_neg hlt] at h
            cases h
  rw [update_counted] at h
  have hupdated := hplain _ h
  cases first with
  | false => exact hupdated
  | true => exact ⟨hupdated.1, hupdated.2, hupdated.3, hupdated.4, hupdated.5, hupdated.6⟩

/-- A buffer of a recipe stays one. -/
theorem Buffer.Of.updated (h : b.Of t recipe) (hupdated : Updated first b b') : b'.Of t recipe := by
  refine ⟨?_, hupdated.vector.trans h.vector, ?_, hupdated.required.trans h.required⟩
  · rw [hupdated.wkt]
    exact h.wkt
  · rw [hupdated.length]
    exact h.digits

/-- What is delivered for a source ID of a recipe. -/
theorem Recipe.Suits.stores (h : recipe.Suits t active storage literals wkt) {id type : Nat}
    (hid : id ∈ recipe.ids) (hactive : (id, type) ∈ active) (hvalue : StoredAs t type value) :
    Stores literals.length storage value := by
  obtain ⟨literals', wkt', hscalar, hlength⟩ := h.stored id hid type hactive
  obtain ⟨storage'', literals'', wkt'', hscalar', hstores⟩ := hvalue
  rw [hscalar] at hscalar'
  cases hscalar'
  exact hlength ▸ hstores

/-- The marker of a buffer is that of its type. -/
theorem Recipe.Suits.wkt_eq (h : recipe.Suits t active storage literals wkt) (hb : b.Of t recipe) :
    b.wkt = wkt := by
  obtain ⟨storage', literals', hscalar⟩ := hb.wkt
  rw [h.scalar] at hscalar
  cases hscalar
  rfl

/-- The slot of the digits that a marked value is written to. -/
theorem Recipe.Suits.slot_lt (h : recipe.Suits t active storage literals wkt) (hb : b.Of t recipe)
    (hwkt : wkt ≠ 0) (hposition : position < recipe.ids.length) :
    (if b.vector then position else 0) < b.digits.length := by
  have hdigits := hb.digits
  rw [hb.vector]
  rcases h.kind with ⟨hvector, -, hencoding⟩ | ⟨hvector, -, hencoding⟩
  · have henum := h.fits.isEnum hwkt
    have hne : (storage == .f64) = false := by cases storage <;> first | rfl | cases henum
    rw [hencoding, hne, width_marked henum hwkt] at hdigits
    rw [hvector, ← Option.some.inj hdigits]
    exact Nat.one_pos
  · rw [hencoding] at hdigits
    rw [hvector, ← Option.some.inj hdigits]
    exact hposition

/-- The digits of a recipe without marker fit a shift. -/
theorem Recipe.Suits.length_le (h : recipe.Suits t active storage literals 0) (hb : b.Of t recipe) :
    b.digits.length ≤ 64 := by
  have hdigits := hb.digits
  rcases h.kind with ⟨-, -, hencoding⟩ | ⟨-, hwkt, -⟩
  · rw [hencoding] at hdigits
    split at hdigits
    · rw [← Option.some.inj hdigits]
      exact Nat.zero_le _
    · rw [← Option.some.inj hdigits]
      exact width_le h.ordinals
  · omega

/-- Digits are written without a shift that is too far, up to 64 of them. -/
theorem setBits_isSome {bits : Nat} (h : b.digits.length ≤ 64) :
    ∃ b', b.setBits bits = some b' := by
  unfold Buffer.setBits
  rw [if_neg (Nat.not_lt.2 h)]
  exact ⟨_, rfl⟩

/-- **An update stays inside.** A value that is stored as the type of the recipe goes to a digit of
the buffer, and an ordinal has a digit in the alphabet. -/
theorem Recipe.Suits.update (h : recipe.Suits t active storage literals wkt) (first : Bool)
    (hb : b.Of t recipe) (hposition : position < recipe.ids.length)
    (hvalue : Stores literals.length storage value) :
    ∃ b', b.update position value first = some b' := by
  have hplain : ∀ b : Buffer, b.Of t recipe → ∃ b', b.update position value false = some b' := by
    intro b hb
    have hwkt := h.wkt_eq hb
    cases hvalue with
    | real => exact ⟨_, rfl⟩
    | integer hstorage =>
      have hzero : wkt = 0 := by
        by_contra hne
        have henum := h.fits.isEnum hne
        cases storage <;> first | exact absurd hstorage (by decide) | cases henum
      subst hzero
      exact setBits_isSome (h.length_le hb)
    | @ordinal _ ordinal _ hlt =>
      unfold Buffer.update
      rw [if_neg Bool.false_ne_true]
      dsimp only
      rw [hwkt]
      by_cases hzero : wkt = 0
      · rw [if_neg (not_not.2 hzero)]
        subst hzero
        exact setBits_isSome (h.length_le hb)
      · rw [if_pos hzero, List.getElem?_eq_getElem (by rw [h.fits.alphabet hzero]; exact hlt)]
        dsimp only
        rw [if_pos (h.slot_lt hb hzero hposition)]
        exact ⟨_, rfl⟩
  rw [update_counted]
  cases first with
  | false => exact hplain b hb
  | true => exact hplain _ ⟨hb.wkt, hb.vector, hb.digits, hb.required⟩

end

/-! ## Recipes of a section -/

section
variable {t : Types} {m : Mapper} {leaves : List Leaf}

/-- The type that an alias stands for is the same scalar. -/
theorem Types.Sound.scalar_effective (ht : t.Sound) (id : Nat) :
    t.scalar (t.effective id) = t.scalar id := by
  rw [Types.scalar, Types.scalar, ht.effective_self (ht.effective_not_alias id)]

/-- What the active table has for a source ID that is established. -/
theorem Established.active (ht : t.Sound) {maxId id n : Nat} {storage : Storage}
    {table : ScalarTable} (htable : table.Sound maxId) (h : Established t storage n table id) :
    (∃ type, (id, type) ∈ table.intoActive t) ∧ ∀ type, (id, type) ∈ table.intoActive t →
      ∃ literals wkt, t.scalar type = some (storage, literals, wkt) ∧ literals.length = n := by
  obtain ⟨type, literals, wkt, hget, hscalar, hlength⟩ := h
  refine ⟨⟨_, (htable.mem_intoActive t).2 ⟨type, hget, rfl⟩⟩, fun type' hactive => ?_⟩
  obtain ⟨type'', hget', rfl⟩ := (htable.mem_intoActive t).1 hactive
  obtain rfl : type = type'' := Option.some.inj (hget.symm.trans hget')
  exact ⟨literals, wkt, (ht.scalar_effective type).trans hscalar, hlength⟩

/-- The recipe that a leaf of a section asks for suits. -/
theorem Mapped.suits (ht : t.WellFormed) (hmarked : t.Marked) (h : Mapped t m leaves) {leaf : Leaf}
    (hleaf : leaf ∈ leaves) {own : Recipe} (hown : leaf.recipe t = some own) :
    ∃ storage literals wkt, own.Suits t (m.scalarTypes.intoActive t) storage literals wkt := by
  obtain ⟨scalarType, htype, hrecipe⟩ := Option.bind_eq_some_iff.1 hown
  obtain ⟨⟨storage, literals, wkt⟩, hscalar, heq⟩ := Option.map_eq_some_iff.1 hrecipe
  obtain ⟨hfits, hordinals⟩ := hmarked.scalar hscalar
  have hids : own.ids = leaf.ids := heq ▸ rfl
  have hscalarType : own.scalarType = scalarType := heq ▸ rfl
  have hestablished : ∀ id ∈ own.ids, Established t storage literals.length m.scalarTypes id := by
    obtain ⟨i, hi⟩ := List.getElem?_of_mem hleaf
    have hlt := (List.getElem?_eq_some_iff.1 hi).1
    obtain ⟨own', hsourced⟩ := h.vars.get (hlt.trans_eq h.vars.length_eq.symm) hlt
    rw [List.get_eq_getElem, List.get_eq_getElem, (List.getElem?_eq_some_iff.1 hi).2] at hsourced
    obtain rfl : own' = own := Option.some.inj (hsourced.asked.symm.trans hown)
    rw [hids]
    exact hsourced.established storage literals wkt (hscalarType ▸ hscalar)
  refine ⟨storage, literals, wkt, hscalarType ▸ hscalar, hfits, hordinals, ?_,
    fun id hid => ((hestablished id hid).active ht.sound h.table).1,
    fun id hid => ((hestablished id hid).active ht.sound h.table).2⟩
  have hkind := h.kinds leaf hleaf
  generalize hn : leaf.ids.length = n at hkind
  cases hkind with
  | @scalar scalar hleafScalar =>
    have hsome : (t.scalar leaf.type).isNone = false := by rw [hleafScalar]; rfl
    subst heq
    dsimp only
    rw [hsome]
    exact .inl ⟨rfl, hn, rfl⟩
  | @vector element _ wkt' _ _ storage' literals' hshape helement hwkt =>
    have hnone : t.scalar leaf.type = none := by rw [Types.scalar, hshape]
    rw [scalarTypeOf, hnone, hshape] at htype
    obtain rfl : element = scalarType := Option.some.inj htype
    rw [helement] at hscalar
    cases hscalar
    have henum := hfits.isEnum (by rcases hwkt with rfl | rfl <;> decide)
    have hne : (storage == .f64) = false := by cases storage <;> first | rfl | cases henum
    subst heq
    dsimp only
    rw [hnone, hne]
    exact .inr ⟨rfl, hwkt, rfl⟩

end

/-! ## Slots -/

/-- Every recipe suits the active table, with the type it has. -/
def AllSuit (t : Types) (active : Active) (slots : List Recipe) : Prop :=
  ∀ recipe ∈ slots, ∃ storage literals wkt, recipe.Suits t active storage literals wkt

/-- The buffers of an assembly are those of the recipes in its slots. Its dependencies ascend and
are positions of these recipes, and the ranges it has prepared are theirs. -/
structure Assembly.Fitted (t : Types) (active : Active) (slots : List Recipe) (a : Assembly) :
    Prop where
  buffers : List.Forall₂ (Buffer.Of t) slots a.buffers
  sorted : a.dependencies.Pairwise fun d d' => d.id ≤ d'.id
  positions : ∀ d ∈ a.dependencies, ∃ recipe, slots[d.slot]? = some recipe ∧
    recipe.ids[d.position]? = some d.id
  routes : ∀ routes, a.routes = some routes → routes = dependencyRanges active a.dependencies
  selected : ∀ routes, a.selected = some routes →
    routes = selectedRanges a.dependencies (sourceIdsOf a.dependencies)

namespace Assembly

section
variable {t : Types} {active : Active} {slots : List Recipe} {a a' : Assembly} {event : ScalarEvent}

/-- Every source ID of a dependency is in the active table. -/
theorem Fitted.listed (h : Fitted t active slots a) (hslots : AllSuit t active slots)
    {d : Dependency} (hd : d ∈ a.dependencies) : ∃ type, (d.id, type) ∈ active := by
  obtain ⟨recipe, hrecipe, hid⟩ := h.positions d hd
  obtain ⟨storage, literals, wkt, hsuits⟩ := hslots recipe (List.mem_of_getElem? hrecipe)
  exact hsuits.listed d.id (List.mem_of_getElem? hid)

/-- However the dependencies of an event are looked up, the range is that of its source ID. -/
theorem Fitted.range (h : Fitted t active slots a) (hslots : AllSuit t active slots)
    (hactive : active.Pairwise fun x y => x.1 < y.1)
    (hevent : Delivers t active (sourceIdsOf a.dependencies) event) :
    eventRange event a.routes a.selected a.dependencies =
      dependencyRange a.dependencies event.id := by
  unfold eventRange
  split
  · next routes hroutes =>
    obtain ⟨type, hrank, -⟩ := hevent.stored
    rw [h.routes routes hroutes]
    have hkeys : ∀ key ∈ a.dependencies.map Dependency.id, key ∈ active.map Prod.fst := by
      intro key hkey
      obtain ⟨d, hd, rfl⟩ := List.mem_map.1 hkey
      obtain ⟨type', hlisted⟩ := h.listed hslots hd
      exact List.mem_map_of_mem hlisted
    have hstart : ∀ id ∈ (active.map Prod.fst).head?,
        0 = (keyRange (a.dependencies.map Dependency.id) id).1 := by
      intro id hid
      have hnone : ((a.dependencies.map Dependency.id).takeWhile fun key =>
          decide (key < id)) = [] := by
        have hle : ∀ key ∈ active.map Prod.fst, id ≤ key := by
          cases active with
          | nil => cases hid
          | cons first active =>
            cases hid
            intro key hkey
            rcases List.mem_cons.1 hkey with rfl | hkey
            · exact Nat.le_refl _
            · obtain ⟨entry, hentry, rfl⟩ := List.mem_map.1 hkey
              exact Nat.le_of_lt ((List.pairwise_cons.1 hactive).1 entry hentry)
        cases hfirst : a.dependencies.map Dependency.id with
        | nil => rfl
        | cons key keys =>
          have hkey := hle key (hkeys key (hfirst ▸ .head _))
          rw [List.takeWhile_cons_of_neg (by simpa using hkey)]
      show 0 = ((a.dependencies.map Dependency.id).takeWhile fun key => decide (key < id)).length
      rw [hnone]
      rfl
    have hget := keyRanges_get (List.pairwise_map.2 h.sorted) (active.map Prod.fst) 0
      (List.pairwise_map.2 hactive) hstart (fun key hkey =>
      .inl (hkeys key hkey)) event.rank event.id
      (by rw [List.getElem?_map, hrank]; rfl)
    rw [dependencyRanges, hget]
    rfl
  · next routes _ hselected =>
    split
    · next hroute =>
      have hid := hevent.route.resolve_left hroute
      rw [h.selected routes hselected, selectedRanges, List.getElem?_map, hid]
      rfl
    · rfl
  · rfl

/-- What the consumer does at a scalar: nothing when its source ID has no dependency, and else an
update of all of them. -/
inductive ScalarStep (a : Assembly) (event : ScalarEvent) : Option Assembly → Prop
  | missed {below above : List Dependency} :
      Parted Dependency.id event.id a.dependencies below [] above → ScalarStep a event (some a)
  | hit {below others above : List Dependency} {owner : Dependency} :
      Parted Dependency.id event.id a.dependencies below (owner :: others) above →
      ScalarStep a event (updateAll event.value (!owner.seen)
        ({ owner with seen := true } :: others)
        { a with dependencies := below ++ ({ owner with seen := true } :: others ++ above) })

/-- The consumer takes a scalar that a walk delivers: it is not for the selection, or it fills the
positions of its dependencies. -/
theorem scalarEvent_step (h : Fitted t active slots a) (hslots : AllSuit t active slots)
    (hactive : active.Pairwise fun x y => x.1 < y.1)
    (hevent : Delivers t active (sourceIdsOf a.dependencies) event) :
    ScalarStep a event (a.scalarEvent event) := by
  obtain ⟨below, equal, above, hparted⟩ := exists_parted h.sorted event.id
  have hrange := (h.range hslots hactive hevent).trans hparted.keyRange
  unfold scalarEvent
  dsimp only
  rw [hrange]
  dsimp only
  cases equal with
  | nil =>
    rw [List.length_nil, Nat.add_zero, if_pos (Nat.le_refl _)]
    exact .missed hparted
  | cons owner others =>
    have hlt : ¬ below.length + (owner :: others).length ≤ below.length := by
      rw [List.length_cons]
      omega
    have hdependencies := hparted.eq
    have howner : a.dependencies[below.length]? = some owner := by
      rw [hdependencies, List.getElem?_append_right (Nat.le_refl _), Nat.sub_self]
      rfl
    have hset : a.dependencies.set below.length { owner with seen := true } =
        below ++ ({ owner with seen := true } :: others ++ above) := by
      rw [hdependencies, List.set_append_right _ _ (Nat.le_refl _), Nat.sub_self]
      rfl
    have hslice :
        ((below ++ ({ owner with seen := true } :: others ++ above)).drop below.length).take
        (below.length + (owner :: others).length - below.length) =
        { owner with seen := true } :: others := by
      rw [List.drop_left, Nat.add_sub_cancel_left]
      exact List.take_left' rfl
    rw [if_neg hlt, howner]
    dsimp only
    rw [hset, hslice, if_neg (by
      rw [List.length_append, List.length_append, List.length_cons, List.length_cons]
      omega)]
    exact .hit hparted

/-- A dependency of a source ID that is delivered has a value that is stored as its recipe. -/
theorem Fitted.stores (h : Fitted t active slots a) (hslots : AllSuit t active slots)
    (hevent : Delivers t active (sourceIdsOf a.dependencies) event) {d : Dependency}
    (hd : d ∈ a.dependencies) (hid : d.id = event.id) :
    ∃ recipe storage literals wkt, slots[d.slot]? = some recipe ∧ d.position < recipe.ids.length ∧
      recipe.Suits t active storage literals wkt ∧ Stores literals.length storage event.value := by
  obtain ⟨recipe, hrecipe, hposition⟩ := h.positions d hd
  obtain ⟨storage, literals, wkt, hsuits⟩ := hslots recipe (List.mem_of_getElem? hrecipe)
  obtain ⟨type, hrank, hvalue⟩ := hevent.stored
  refine ⟨recipe, storage, literals, wkt, hrecipe, (List.getElem?_eq_some_iff.1 hposition).1,
    hsuits, ?_⟩
  exact hsuits.stores (List.mem_of_getElem? hposition)
    (hid ▸ List.mem_of_getElem? hrank) hvalue

/-! ## Updates of several dependencies -/

/-- What updates of some dependencies leave as it is, and what they count. -/
structure UpdatedAll (first : Bool) (ds : List Dependency) (a a' : Assembly) : Prop where
  dependencies : a'.dependencies = a.dependencies
  routes : a'.routes = a.routes
  selected : a'.selected = a.selected
  buffers : ∀ slot b', a'.buffers[slot]? = some b' → ∃ b, a.buffers[slot]? = some b ∧
    b'.index = b.index ∧ b'.known = b.known + if first then ds.countP fun d => d.slot == slot else 0

/-- A value for some positions of slots is stored as their recipes are. -/
def StoresAll (t : Types) (active : Active) (slots : List Recipe) (value : Scalar)
    (ds : List Dependency) : Prop :=
  ∀ d ∈ ds, ∃ recipe storage literals wkt, slots[d.slot]? = some recipe ∧
    d.position < recipe.ids.length ∧ recipe.Suits t active storage literals wkt ∧
    Stores literals.length storage value

/-- What is paired with an entry. -/
theorem forall₂_getElem? {α β : Type} {R : α → β → Prop} {xs : List α} {ys : List β}
    (h : List.Forall₂ R xs ys) {i : Nat} {x : α} (hx : xs[i]? = some x) :
    ∃ y, ys[i]? = some y ∧ R x y := by
  obtain ⟨hlt, heq⟩ := List.getElem?_eq_some_iff.1 hx
  have hlt' := hlt.trans_eq h.length_eq
  refine ⟨_, List.getElem?_eq_getElem hlt', ?_⟩
  have hrel := h.get hlt hlt'
  rwa [List.get_eq_getElem, List.get_eq_getElem, heq] at hrel

/-- The buffer of a slot. -/
theorem exists_buffer (hbuffers : List.Forall₂ (Buffer.Of t) slots a.buffers) {slot : Nat}
    {recipe : Recipe} (h : slots[slot]? = some recipe) :
    ∃ b, a.buffers[slot]? = some b ∧ b.Of t recipe :=
  forall₂_getElem? hbuffers h

/-- A changed buffer is still one of its recipe. -/
theorem put_of (hbuffers : List.Forall₂ (Buffer.Of t) slots a.buffers) {slot : Nat}
    {recipe : Recipe} (h : slots[slot]? = some recipe) {b : Buffer} (hb : b.Of t recipe) :
    List.Forall₂ (Buffer.Of t) slots (a.put slot b).buffers := by
  refine List.forall₂_iff_get.2 ⟨hbuffers.length_eq.trans List.length_set.symm, fun i hi hi' => ?_⟩
  have hi'' : i < a.buffers.length := hi'.trans_eq List.length_set
  show (Buffer.Of t) (slots.get ⟨i, hi⟩) ((a.buffers.set slot b).get ⟨i, hi'⟩)
  rw [List.get_eq_getElem, List.get_eq_getElem, List.getElem_set]
  split
  · next heq =>
    subst heq
    rw [(List.getElem?_eq_some_iff.1 h).2]
    exact hb
  · exact hbuffers.get hi hi''

/-- **Updates stay inside.** Values that are stored as the recipes of their slots update every
dependency. -/
theorem updateAll_total {value : Scalar} (first : Bool) (ds : List Dependency) : ∀ a : Assembly,
    StoresAll t active slots value ds → List.Forall₂ (Buffer.Of t) slots a.buffers →
    ∃ a', updateAll value first ds a = some a' ∧ UpdatedAll first ds a a' ∧
      List.Forall₂ (Buffer.Of t) slots a'.buffers := by
  induction ds with
  | nil =>
    refine fun a _ hbuffers =>
      ⟨a, rfl, ⟨rfl, rfl, rfl, fun slot b hb => ⟨b, hb, rfl, ?_⟩⟩, hbuffers⟩
    split <;> rfl
  | cons d ds ih =>
    intro a hstores hbuffers
    obtain ⟨recipe, storage, literals, wkt, hrecipe, hposition, hsuits, hvalue⟩ :=
      hstores d (.head _)
    obtain ⟨b, hb, hof⟩ := exists_buffer hbuffers hrecipe
    obtain ⟨b', hupdate⟩ := hsuits.update first hof hposition hvalue
    have hupdated := update_updated hupdate
    obtain ⟨a', hrest, hall, hbuffers'⟩ :=
      ih (a.put d.slot b') (fun d' hd' => hstores d' (.tail _ hd'))
      (put_of hbuffers hrecipe (hof.updated hupdated))
    refine ⟨a', ?_, ⟨hall.dependencies, hall.routes, hall.selected, fun slot last hlast => ?_⟩,
      hbuffers'⟩
    · rw [updateAll, hb]
      dsimp only
      rw [hupdate]
      exact hrest
    · obtain ⟨mid, hmid, hindex, hknown⟩ := hall.buffers slot last hlast
      have hmid' : (a.buffers.set d.slot b')[slot]? = some mid := hmid
      rw [List.getElem?_set] at hmid'
      by_cases hslot : d.slot = slot
      · rw [if_pos hslot, if_pos (List.getElem?_eq_some_iff.1 hb).1] at hmid'
        obtain rfl := Option.some.inj hmid'
        refine ⟨b, hslot ▸ hb, hindex.trans hupdated.index, ?_⟩
        rw [hknown, hupdated.known, List.countP_cons, if_pos (beq_iff_eq.2 hslot)]
        split <;> omega
      · rw [if_neg hslot] at hmid'
        refine ⟨mid, hmid', hindex, ?_⟩
        have hne : ¬(d.slot == slot) = true := fun heq => hslot (beq_iff_eq.1 heq)
        rw [hknown, List.countP_cons, if_neg hne, Nat.add_zero]

/-- A source ID that is marked as seen changes nothing that the slots rest on. -/
theorem Fitted.see (h : Fitted t active slots a) {k : Nat} {below others above : List Dependency}
    {owner : Dependency}
    (hparted : Parted Dependency.id k a.dependencies below (owner :: others) above) :
    Fitted t active slots
      { a with dependencies := below ++ ({ owner with seen := true } :: others ++ above) } ∧
    (below ++ ({ owner with seen := true } :: others ++ above)).map Dependency.id =
      a.dependencies.map Dependency.id := by
  have hkeys : (below ++ ({ owner with seen := true } :: others ++ above)).map Dependency.id =
      a.dependencies.map Dependency.id := by
    rw [hparted.eq]
    simp only [List.map_append, List.map_cons]
  refine ⟨⟨h.buffers, ?_, fun d hd => ?_, fun routes hroutes => ?_,
    fun routes hroutes => ?_⟩, hkeys⟩
  · have hsorted := List.pairwise_map.2 h.sorted
    rw [← hkeys] at hsorted
    exact List.pairwise_map.1 hsorted
  · have hd' : d ∈ a.dependencies ∨ d = { owner with seen := true } := by
      rw [hparted.eq]
      rcases List.mem_append.1 hd with hd | hd
      · exact .inl (List.mem_append_left _ hd)
      rcases List.mem_cons.1 hd with rfl | hd
      · exact .inr rfl
      · exact .inl (List.mem_append_right _ (.tail _ hd))
    rcases hd' with hd' | rfl
    · exact h.positions d hd'
    · exact h.positions owner (hparted.eq ▸ List.mem_append_right _ (.head _))
  · rw [h.routes routes hroutes, dependencyRanges, dependencyRanges, ← hkeys]
  · have hrange : dependencyRange a.dependencies =
        dependencyRange (below ++ ({ owner with seen := true } :: others ++ above)) := by
      funext id
      rw [dependencyRange, dependencyRange, hkeys]
    rw [h.selected routes hroutes, selectedRanges, selectedRanges, sourceIdsOf,
      sourceIdsOf, ← hkeys,
      hrange]

/-- The dependencies of a scalar that is delivered take its value. -/
theorem Fitted.storesAll (h : Fitted t active slots a) (hslots : AllSuit t active slots)
    (hevent : Delivers t active (sourceIdsOf a.dependencies) event)
    {below equal above : List Dependency}
    (hparted : Parted Dependency.id event.id a.dependencies below equal above) :
    StoresAll t active slots event.value equal := fun d hd =>
  h.stores hslots hevent (hparted.eq ▸ List.mem_append_right _ (List.mem_append_left _ hd))
    (hparted.equal d hd)

/-- The dependencies of a scalar that is delivered take its value also when its source ID is marked
as seen. -/
theorem Fitted.hit_stores (h : Fitted t active slots a) (hslots : AllSuit t active slots)
    (hevent : Delivers t active (sourceIdsOf a.dependencies) event)
    {below others above : List Dependency} {owner : Dependency}
    (hparted : Parted Dependency.id event.id a.dependencies below (owner :: others) above) :
    StoresAll t active slots event.value ({ owner with seen := true } :: others) := by
  have hall := h.storesAll hslots hevent hparted
  intro d hd
  rcases List.mem_cons.1 hd with rfl | hd
  · exact hall owner (.head _)
  · exact hall d (.tail _ hd)

/-- **The consumer stays inside.** A scalar that is delivered updates all dependencies of its source
ID, and the slots stay fitted. -/
theorem Fitted.hit (h : Fitted t active slots a) (hslots : AllSuit t active slots)
    (hevent : Delivers t active (sourceIdsOf a.dependencies) event)
    {below others above : List Dependency} {owner : Dependency}
    (hparted : Parted Dependency.id event.id a.dependencies below (owner :: others) above) :
    ∃ a', updateAll event.value (!owner.seen) ({ owner with seen := true } :: others)
        { a with dependencies := below ++ ({ owner with seen := true } :: others ++ above) }
        = some a' ∧
      UpdatedAll (!owner.seen) ({ owner with seen := true } :: others)
        { a with dependencies := below ++ ({ owner with seen := true } :: others ++ above) } a' ∧
      Fitted t active slots a' ∧ a'.dependencies.map Dependency.id =
        a.dependencies.map Dependency.id := by
  obtain ⟨hfitted, hkeys⟩ := h.see hparted
  obtain ⟨a', hrun, hall, hbuffers⟩ := updateAll_total (!owner.seen) _ _
    (h.hit_stores hslots hevent hparted) hfitted.buffers
  have hdependencies := hall.dependencies
  refine ⟨a', hrun, hall, ⟨hbuffers, ?_, ?_, ?_, ?_⟩, hdependencies ▸ hkeys⟩
  · rw [hdependencies]
    exact hfitted.sorted
  · rw [hdependencies]
    exact hfitted.positions
  · rw [hall.routes, hdependencies]
    exact hfitted.routes
  · rw [hall.selected, hdependencies]
    exact hfitted.selected

/-- The scalar events of some events are delivered for an active table. -/
def EventsDelivered (t : Types) (active : Active) (ids : List Nat) (events : List Event) : Prop :=
  ∀ event, .scalar event ∈ events → Delivers t active ids event

/-- Delivered events one after the other. -/
theorem EventsDelivered.append {t : Types} {active : Active} {ids : List Nat}
    {events more : List Event} (h : EventsDelivered t active ids events)
    (hmore : EventsDelivered t active ids more) : EventsDelivered t active ids (events ++ more) :=
  fun e he => (List.mem_append.1 he).elim (h e) (hmore e)

/-- Source IDs that stay give the same selected IDs. -/
theorem sourceIdsOf_congr {ds ds' : List Dependency}
    (h : ds'.map Dependency.id = ds.map Dependency.id) : sourceIdsOf ds' = sourceIdsOf ds := by
  rw [sourceIdsOf, sourceIdsOf, h]

/-- An event that is delivered is consumed, and the slots stay fitted. -/
theorem consume_total (h : Fitted t active slots a) (hslots : AllSuit t active slots)
    (hactive : active.Pairwise fun x y => x.1 < y.1) {event : Event}
    (hevent : ∀ e, event = .scalar e → Delivers t active (sourceIdsOf a.dependencies) e) :
    ∃ notifications a', a.consume event = some (notifications, a') ∧ Fitted t active slots a' ∧
      a'.dependencies.map Dependency.id = a.dependencies.map Dependency.id := by
  cases event with
  | tick time => exact ⟨_, a, rfl, h, rfl⟩
  | listEnd time => exact ⟨_, _, rfl, ⟨h.buffers, h.sorted, h.positions, h.routes, h.selected⟩, rfl⟩
  | scalar e =>
    have hdelivers := hevent e rfl
    have hstep := scalarEvent_step h hslots hactive hdelivers
    show ∃ notifications a', (a.scalarEvent e).map (fun a => ([], a)) = some (notifications, a') ∧ _
    generalize a.scalarEvent e = result at hstep
    cases hstep with
    | missed => exact ⟨[], a, rfl, h, rfl⟩
    | hit hparted =>
      obtain ⟨a', hrun, -, hfitted, hkeys⟩ := h.hit hslots hdelivers hparted
      rw [hrun]
      exact ⟨[], a', rfl, hfitted, hkeys⟩

end

/-! ## Preparation -/

/-- What a sort of the dependencies by their source IDs does. -/
structure Sorts (sort : List Dependency → List Dependency) : Prop where
  perm : ∀ ds, (sort ds).Perm ds
  sorted : ∀ ds, (sort ds).Pairwise fun d d' => d.id ≤ d'.id

/-- The dependencies of recipes in slots, the first of which has a number. -/
def slotDependencies (slots : List Recipe) (slot : Nat) : List Dependency :=
  (slots.zipIdx slot).flatMap fun (recipe, slot) => recipe.dependencies slot

/-- An assembly before any event: it has all dependencies of its slots, and has seen none. -/
structure Fresh (slots : List Recipe) (a : Assembly) : Prop where
  dependencies : a.dependencies.Perm (slotDependencies slots 0)
  known : ∀ b ∈ a.buffers, b.known = 0

section
variable {t : Types} {recipes : List Recipe} {active : Active} {w w' : Wire}

/-- A new buffer is that of its recipe, and has counted nothing. -/
theorem new_of {index : Nat} {recipe : Recipe} {b : Buffer}
    (h : Buffer.new t index recipe w = (.ok b, w')) :
    b.Of t recipe ∧ b.known = 0 ∧ b.index = index := by
  unfold Buffer.new at h
  cases hscalar : t.scalar recipe.scalarType with
  | none => rw [hscalar] at h; cases h
  | some scalar =>
    obtain ⟨storage, literals, wkt⟩ := scalar
    rw [hscalar] at h
    dsimp only at h
    cases hwidth : Buffer.widthOf recipe.encoding with
    | none => rw [hwidth] at h; cases h
    | some width =>
      rw [hwidth] at h
      cases h
      refine ⟨⟨⟨storage, literals, hscalar⟩, rfl, ?_, rfl⟩, rfl, rfl⟩
      rw [hwidth, List.length_replicate]

/-- The loop over the selected signals, by induction on them. -/
theorem gather_ok (signals : List Signal) : ∀ (buffers bs : List Buffer)
    (dependencies ds : List Dependency) (w : Wire),
    gather t recipes signals buffers dependencies w = (.ok (bs, ds), w') →
    ∃ slots fresh, List.Forall₂ (fun signal recipe => recipes[signal.index]? = some recipe)
      signals slots ∧
      bs = buffers ++ fresh ∧ List.Forall₂ (Buffer.Of t) slots fresh ∧ (∀ b ∈ fresh, b.known = 0) ∧
      ds = dependencies ++ slotDependencies slots buffers.length := by
  induction signals with
  | nil =>
    intro buffers bs dependencies ds w h
    cases h
    exact ⟨[], [], .nil, (List.append_nil _).symm, .nil, nofun, (List.append_nil _).symm⟩
  | cons signal signals ih =>
    intro buffers bs dependencies ds w h
    unfold gather at h
    cases hrecipe : recipes[signal.index]? with
    | none => rw [hrecipe] at h; cases h
    | some recipe =>
      rw [hrecipe] at h
      obtain ⟨b, w₁, hb, hrest⟩ := Decoder.bind_eq_ok.1 h
      obtain ⟨hof, hknown, -⟩ := new_of hb
      obtain ⟨slots, fresh, hslots, rfl, hfresh, hzero, rfl⟩ := ih _ _ _ _ _ hrest
      refine ⟨recipe :: slots, b :: fresh, .cons hrecipe hslots, ?_, .cons hof hfresh, ?_, ?_⟩
      · rw [List.append_assoc, List.singleton_append]
      · intro b' hb'
        rcases List.mem_cons.1 hb' with rfl | hb'
        · exact hknown
        · exact hzero b' hb'
      · rw [List.append_assoc, List.length_append, List.length_singleton]
        rfl

/-- A position of a slot. -/
theorem mem_slotDependencies {slots : List Recipe} {d : Dependency}
    (h : d ∈ slotDependencies slots 0) :
    ∃ recipe, slots[d.slot]? = some recipe ∧ recipe.ids[d.position]? = some d.id := by
  obtain ⟨⟨recipe, slot⟩, hrecipe, hd⟩ := List.mem_flatMap.1 h
  obtain ⟨⟨id, position⟩, hid, rfl⟩ := List.mem_map.1 hd
  exact ⟨recipe, List.mk_mem_zipIdx_iff_getElem?.1 hrecipe, List.mk_mem_zipIdx_iff_getElem?.1 hid⟩

/-- What a read has prepared before its first event. -/
theorem prepare_fitted {indexed : Bool} {sort : List Dependency → List Dependency}
    (hsort : Sorts sort) {signals : List Signal} {a : Assembly}
    (h : prepare t recipes active indexed sort signals w = (.ok a, w')) :
    ∃ slots, List.Forall₂ (fun signal recipe => recipes[signal.index]? = some recipe)
      signals slots ∧
      Fitted t active slots a ∧ Fresh slots a := by
  obtain ⟨⟨buffers, dependencies⟩, w₁, hgather, hpure⟩ := Decoder.bind_eq_ok.1 h
  obtain ⟨slots, fresh, hslots, rfl, hfresh, hzero, rfl⟩ := gather_ok signals _ _ _ _ _ hgather
  cases hpure
  refine ⟨slots, hslots, ⟨hfresh, hsort.sorted _, fun d hd => ?_, fun routes hroutes => ?_,
    fun routes hroutes => ?_⟩, hsort.perm _, hzero⟩
  · exact mem_slotDependencies ((hsort.perm _).mem_iff.1 hd)
  · dsimp only at hroutes
    split at hroutes
    · exact (Option.some.inj hroutes).symm
    · cases hroutes
  · dsimp only at hroutes
    split at hroutes
    · exact (Option.some.inj hroutes).symm
    · cases hroutes

end

end Assembly

end Ondas.Ghw
