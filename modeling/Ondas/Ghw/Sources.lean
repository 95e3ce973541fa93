import Ondas.Ghw.ScalarTable
import Ondas.Ghw.Amplification

/-!
# Source IDs and recipes of a section

`sectionLeaves` reads a section for the leaves that its objects expand to, without a mapper. Each
leaf asks for a recipe of its own (`Leaf.recipe`); the mapper gives it the recipe of the first leaf
that has the same source IDs and encoding. `Mapped` is what holds of a mapper after some leaves:
each variable has a recipe of its IDs and encoding, each recipe is that of the first leaf it is
given to, and the source IDs of a leaf have a type that is stored as the leaf is, with as many
literals. A leaf keeps it (`Mapped.leaf`), and so does a section (`read_mapped`).
-/

namespace Ondas.Ghw

open Library Wire Ondas.Ghw.Types

/-! ## The leaves of a section -/

/-- The leaves of a section from some entry on, with the number of scopes and the scopes that are
open. -/
def leavesLoop (t : Types) : Nat → Nat → List Nat → Read (List Leaf)
  | 0, _, _ => Decoder.fail (malformed "truncated field")
  | fuel + 1, scopes, stack => do
    let entry ← readEntry t
    match entry with
    | .stop => pure []
    | .close => leavesLoop t fuel scopes stack.tail
    | .scope _ _ opens =>
      leavesLoop t fuel (scopes + 1) (if opens then scopes :: stack else stack)
    | .object name id _ => do
      let ids ← Decoder.times uleb ((t.scalars? id).getD 0)
      let leaves ← leavesLoop t fuel
        (scopes + ((t.tree name id).scopes stack.head? scopes).length) stack
      pure ((t.tree name id).leaves stack.head? scopes ids ++ leaves)

/-- The leaves of a section, in order. -/
def sectionLeaves (t : Types) : Read (List Leaf) := do
  let _ ← SectionState.start
  let fuel ← Decoder.look fun w => w.rest.length + 1
  leavesLoop t fuel 0 []

/-- The scalar type that `Mapper::leaf` takes for a leaf. -/
def scalarTypeOf (t : Types) (id : Nat) : Option Nat :=
  if (t.scalar id).isNone then
    match t.shape? (t.effective id) with
    | some (.array element _ _) => some element
    | _ => none
  else some id

/-- The recipe that a leaf asks for. -/
def Leaf.recipe (t : Types) (leaf : Leaf) : Option Recipe :=
  (scalarTypeOf t leaf.type).bind fun scalarType =>
    (t.scalar scalarType).map fun scalar =>
      let vector := (t.scalar leaf.type).isNone
      let width := if vector then leaf.ids.length else Mapper.width scalar
      ⟨leaf.ids, if scalar.1 == .f64 then .real else .bits width, scalarType, vector⟩

/-- A source ID has a type in the table that is stored in this way and has so many literals. -/
def Established (t : Types) (storage : Storage) (n : Nat) (table : ScalarTable) (id : Nat) : Prop :=
  ∃ type literals wkt, table.get id = some type ∧ t.scalar type = some (storage, literals, wkt) ∧
    literals.length = n

/-- The variable of a leaf: its recipe has the IDs and the encoding of the recipe that the leaf asks
for, and the types of its source IDs fit that one. -/
structure Sourced (t : Types) (m : Mapper) (v : VariableData) (leaf : Leaf) (own : Recipe) :
    Prop where
  asked : leaf.recipe t = some own
  ids : own.ids = leaf.ids
  established : ∀ storage literals wkt, t.scalar own.scalarType = some (storage, literals, wkt) →
    ∀ id ∈ leaf.ids, Established t storage literals.length m.scalarTypes id
  signal : match v.signal with
    | none => leaf.ids = []
    | some signal => leaf.ids ≠ [] ∧ ∃ recipe, m.recipes.list[signal]? = some recipe ∧
        recipe.ids = own.ids ∧ recipe.encoding = own.encoding

/-- A recipe is the one that the first leaf asks for whose variable has it. -/
def FirstLeaf (t : Types) (m : Mapper) (leaves : List Leaf) (signal : Nat)
    (recipe : Recipe) : Prop :=
  ∃ i leaf v, leaves[i]? = some leaf ∧ leaf.recipe t = some recipe ∧ m.vars[i]? = some v ∧
    v.signal = some signal ∧ ∀ v' ∈ m.vars.take i, v'.signal ≠ some signal

/-- What holds of a mapper after some leaves. -/
structure Mapped (t : Types) (m : Mapper) (leaves : List Leaf) : Prop where
  table : m.scalarTypes.Sound m.maxId
  kinds : ∀ leaf ∈ leaves, LeafKind t leaf.type leaf.ids.length
  vars : List.Forall₂ (fun v leaf => ∃ own, Sourced t m v leaf own) m.vars leaves
  first : ∀ signal recipe, m.recipes.list[signal]? = some recipe →
    FirstLeaf t m leaves signal recipe

/-! ## One leaf -/

section
variable {t : Types} {m m' : Mapper} {direction : Direction} {w w' : Wire}

/-- The recipe of a leaf: there is none without IDs, one of its key, or a new one. -/
inductive SignalOf (r : Recipes) (recipe : Recipe) : Recipes × Option Nat → Prop
  | none : recipe.ids = [] → SignalOf r recipe (r, none)
  | found {signal : Nat} {found : Recipe} : recipe.ids ≠ [] → r.list[signal]? = some found →
      found.ids = recipe.ids → found.encoding = recipe.encoding → SignalOf r recipe (r, some signal)
  | added : recipe.ids ≠ [] → SignalOf r recipe (r.add recipe, some r.list.length)

/-- A leaf gets no signal, an earlier one with its recipe, or a new one. -/
theorem leafSignal_cases (r : Recipes) (recipe : Recipe) :
    SignalOf r recipe (r.leafSignal recipe) := by
  unfold Recipes.leafSignal
  split
  · next hnone => exact .none hnone
  · next hsome =>
    unfold Recipes.signal
    cases hfind : r.keys.find? fun entry => entry.1 == (recipe.ids, recipe.encoding) with
    | none => exact .added hsome
    | some entry =>
      obtain ⟨found, hfound, hkey⟩ := r.keyed entry (List.mem_of_find?_eq_some hfind)
      have heq : entry.1 = (recipe.ids, recipe.encoding) := by simpa using List.find?_some hfind
      obtain ⟨hids, hencoding⟩ := Prod.mk.inj (hkey.trans heq)
      exact .found hsome hfound hids hencoding

/-- Source IDs that are established keep the types of the others. -/
structure Establishes (t : Types) (maxId : Nat) (storage : Storage) (n : Nat) (ids : List Nat)
    (table table' : ScalarTable) : Prop where
  sound : table'.Sound maxId
  keeps : ∀ id type, table.get id = some type → table'.get id = some type
  established : ∀ id ∈ ids, Established t storage n table' id

/-- A scalar stays established in a table that keeps its entries. -/
theorem Established.mono {storage : Storage} {n id : Nat} {table table' : ScalarTable}
    (h : Established t storage n table id)
    (hkeeps : ∀ id type, table.get id = some type → table'.get id = some type) :
    Established t storage n table' id := by
  obtain ⟨type, literals, wkt, hget, hscalar, hlength⟩ := h
  exact ⟨type, literals, wkt, hkeeps id type hget, hscalar, hlength⟩

/-- The loop over the source IDs of a leaf, by induction on them. -/
theorem establish_ok {maxId scalarType : Nat} {storage : Storage} {literals : List Nat} {wkt : Nat}
    (hscalar : t.scalar scalarType = some (storage, literals, wkt)) (ids : List Nat) :
    ∀ (table table' : ScalarTable) (w : Wire), table.Sound maxId →
      Mapper.establish t maxId scalarType storage literals ids table w = (.ok table', w') →
      Establishes t maxId storage literals.length ids table table' := by
  induction ids with
  | nil =>
    intro table table' w hsound hrun
    cases hrun
    exact ⟨hsound, fun _ _ h => h, nofun⟩
  | cons id ids ih =>
    intro table table' w hsound hrun
    unfold Mapper.establish at hrun
    obtain ⟨_, w₁, hrange, hrest⟩ := Decoder.bind_eq_ok.1 hrun
    have hid := ensure_ensures _ _ _ _ _ hrange
    have hle : id ≤ maxId := by
      rw [Bool.not_eq_true', Bool.or_eq_false_iff, decide_eq_false_iff_not] at hid
      omega
    cases hget : table.get id with
    | none =>
      rw [hget] at hrest
      obtain ⟨hinsert, hgets⟩ := hsound.insert hle scalarType
      have hloop := ih _ table' w₁ hinsert hrest
      refine ⟨hloop.sound, fun id' type h => hloop.keeps id' type ?_, fun id' hid' => ?_⟩
      · rw [hgets]
        split
        · next heq => rw [heq, hget] at h; cases h
        · exact h
      · rcases List.mem_cons.1 hid' with rfl | hid'
        · refine ⟨scalarType, literals, wkt, hloop.keeps id' scalarType ?_, hscalar, rfl⟩
          rw [hgets, if_pos rfl]
        · exact hloop.established id' hid'
    | some previous =>
      rw [hget] at hrest
      dsimp only at hrest
      cases hprevious : t.scalar previous with
      | none => rw [hprevious] at hrest; cases hrest
      | some scalar =>
        obtain ⟨previousStorage, previousLiterals, previousWkt⟩ := scalar
        rw [hprevious] at hrest
        obtain ⟨_, w₂, hsame, hloop⟩ := Decoder.bind_eq_ok.1 hrest
        have hcompatible := ensure_ensures _ _ _ _ _ hsame
        rw [Bool.and_eq_true, beq_iff_eq, beq_iff_eq] at hcompatible
        obtain ⟨rfl, hlength⟩ := hcompatible
        have hloop := ih table table' w₂ hsound hloop
        refine ⟨hloop.sound, hloop.keeps, fun id' hid' => ?_⟩
        rcases List.mem_cons.1 hid' with rfl | hid'
        · exact ⟨previous, previousLiterals, previousWkt, hloop.keeps id' previous hget, hprevious,
            hlength.symm⟩
        · exact hloop.established id' hid'

/-- What a leaf does to the mapper. -/
structure LeafAdded (t : Types) (m m' : Mapper) (leaf : Leaf) (own : Recipe) (v : VariableData)
    (storage : Storage) (n : Nat) : Prop where
  asked : leaf.recipe t = some own
  ids : own.ids = leaf.ids
  scalar : ∀ storage' literals' wkt', t.scalar own.scalarType = some (storage', literals', wkt') →
    storage' = storage ∧ literals'.length = n
  vars : m'.vars = m.vars ++ [v]
  recipes : (m'.recipes, v.signal) = m.recipes.leafSignal own
  maxId : m'.maxId = m.maxId
  establishes : m.scalarTypes.Sound m.maxId →
    Establishes t m.maxId storage n leaf.ids m.scalarTypes m'.scalarTypes

/-- A leaf adds a variable with the recipe of its key. -/
theorem leaf_added {name : String} {parent : Option Nat} {id : Nat} {ids : List Nat}
    {range : Option BitRange}
    (hleaf : m.leaf t name parent id ids direction range w = (.ok m', w')) :
    ∃ own v storage n, LeafAdded t m m' ⟨name, parent, id, range, ids⟩ own v storage n := by
  obtain ⟨scalarType, w₁, htype, h⟩ := Decoder.bind_eq_ok.1 hleaf
  have hscalarType : scalarTypeOf t id = some scalarType := by
    unfold Mapper.leafType at htype
    unfold scalarTypeOf
    by_cases hnone : (t.scalar id).isNone
    · rw [if_pos hnone] at htype ⊢
      cases hshape : t.shape? (t.effective id) with
      | none => rw [hshape] at htype; cases htype
      | some shape =>
        rw [hshape] at htype
        cases shape with
        | array => cases htype; rfl
        | scalar | «alias» | record => cases htype
    · rw [if_neg hnone] at htype ⊢
      cases htype
      rfl
  cases hscalar : t.scalar scalarType with
  | none => rw [hscalar] at h; cases h
  | some scalar =>
    obtain ⟨storage, literals, wkt⟩ := scalar
    rw [hscalar] at h
    obtain ⟨scalarTypes, w₂, hestablish, hrest⟩ := Decoder.bind_eq_ok.1 h
    obtain ⟨_, w₃, -, hrest'⟩ := Decoder.bind_eq_ok.1 hrest
    obtain ⟨enumeration, w₄, -, hpure⟩ := Decoder.bind_eq_ok.1 hrest'
    cases hpure
    refine ⟨⟨ids, if storage == .f64 then .real else .bits
      (if (t.scalar id).isNone then ids.length else Mapper.width (storage, literals, wkt)),
      scalarType,
      (t.scalar id).isNone⟩, _, storage, literals.length, ?_, rfl, ?_, rfl, rfl, rfl, ?_⟩
    · rw [Leaf.recipe, hscalarType, Option.bind_some, hscalar]
      rfl
    · intro storage' literals' wkt' hscalar'
      rw [hscalar] at hscalar'
      cases hscalar'
      exact ⟨rfl, rfl⟩
    · exact fun hsound => establish_ok hscalar ids _ _ w₁ hsound hestablish

/-- A variable keeps its recipe and its types when there are more. -/
theorem Sourced.mono {v : VariableData} {leaf : Leaf} {own : Recipe} (h : Sourced t m v leaf own)
    (hrecipes : m.recipes.list <+: m'.recipes.list)
    (hkeeps : ∀ id type, m.scalarTypes.get id = some type → m'.scalarTypes.get id = some type) :
    Sourced t m' v leaf own := by
  refine ⟨h.asked, h.ids, fun storage literals wkt hscalar id hid =>
    (h.established storage literals wkt hscalar id hid).mono hkeeps, ?_⟩
  have hsignal := h.signal
  split
  · next hnone =>
    rw [hnone] at hsignal
    exact hsignal
  · next signal hsome =>
    rw [hsome] at hsignal
    obtain ⟨hids, recipe, hrecipe, heq⟩ := hsignal
    obtain ⟨more, hmore⟩ := hrecipes
    refine ⟨hids, recipe, ?_, heq⟩
    rw [← hmore, List.getElem?_append_left (List.getElem?_eq_some_iff.1 hrecipe).1, hrecipe]

/-- The first leaf of a recipe stays the first one. -/
theorem FirstLeaf.mono {leaves : List Leaf} {signal : Nat} {recipe : Recipe} {v : VariableData}
    {leaf : Leaf} (h : FirstLeaf t m leaves signal recipe) (hvars : m'.vars = m.vars ++ [v]) :
    FirstLeaf t m' (leaves ++ [leaf]) signal recipe := by
  obtain ⟨i, found, v', hfound, hasked, hv, hsignal, hfirst⟩ := h
  have hlt := (List.getElem?_eq_some_iff.1 hv).1
  refine ⟨i, found, v', ?_, hasked, ?_, hsignal, fun v'' hv'' => hfirst v'' ?_⟩
  · rw [List.getElem?_append_left (List.getElem?_eq_some_iff.1 hfound).1, hfound]
  · rw [hvars, List.getElem?_append_left hlt, hv]
  · rwa [hvars, List.take_append_of_le_length (Nat.le_of_lt hlt)] at hv''

/-- No variable has a signal without recipe. -/
theorem Mapped.signal_lt {leaves : List Leaf} (h : Mapped t m leaves) {v : VariableData}
    (hv : v ∈ m.vars) {signal : Nat} (hsignal : v.signal = some signal) :
    signal < m.recipes.list.length := by
  obtain ⟨i, hi⟩ := List.getElem?_of_mem hv
  have hlt := (List.getElem?_eq_some_iff.1 hi).1
  obtain ⟨own, hsourced⟩ := h.vars.get hlt (hlt.trans_eq h.vars.length_eq)
  have hget := hsourced.signal
  rw [List.get_eq_getElem, (List.getElem?_eq_some_iff.1 hi).2, hsignal] at hget
  obtain ⟨-, recipe, hrecipe, -⟩ := hget
  exact (List.getElem?_eq_some_iff.1 hrecipe).1

/-- A leaf that is added. -/
theorem Mapped.leaf {leaves : List Leaf} {leaf : Leaf} {own : Recipe} {v : VariableData}
    {storage : Storage} {n : Nat} (h : Mapped t m leaves)
    (hadded : LeafAdded t m m' leaf own v storage n)
    (hkind : LeafKind t leaf.type leaf.ids.length) : Mapped t m' (leaves ++ [leaf]) := by
  have hestablishes := hadded.establishes h.table
  have hsignal : SignalOf m.recipes own (m'.recipes, v.signal) :=
    hadded.recipes ▸ leafSignal_cases m.recipes own
  have hestablished : ∀ storage' literals' wkt',
      t.scalar own.scalarType = some (storage', literals', wkt') →
      ∀ id ∈ leaf.ids, Established t storage' literals'.length m'.scalarTypes id := by
    intro storage' literals' wkt' hscalar id hid
    obtain ⟨rfl, hlength⟩ := hadded.scalar storage' literals' wkt' hscalar
    rw [hlength]
    exact hestablishes.established id hid
  have hgrows : m.recipes.list <+: m'.recipes.list := by
    generalize m'.recipes = r, v.signal = s at hsignal
    cases hsignal with
    | none | found => exact List.prefix_rfl
    | added => exact List.prefix_append _ _
  have hnew : Sourced t m' v leaf own := by
    refine ⟨hadded.asked, hadded.ids, hestablished, ?_⟩
    generalize m'.recipes = r, v.signal = s at hsignal
    cases hsignal with
    | none hnone => exact hadded.ids.symm.trans hnone
    | found hne hfound hids hencoding => exact ⟨hadded.ids ▸ hne, _, hfound, hids, hencoding⟩
    | added hne => exact ⟨hadded.ids ▸ hne, own, List.getElem?_concat_length, rfl, rfl⟩
  refine ⟨hadded.maxId ▸ hestablishes.sound, fun other hother => ?_, ?_,
    fun signal recipe hget => ?_⟩
  · rcases List.mem_append.1 hother with hother | hother
    · exact h.kinds other hother
    · exact List.mem_singleton.1 hother ▸ hkind
  · rw [hadded.vars]
    refine List.rel_append (h.vars.imp ?_) (.cons ⟨own, hnew⟩ .nil)
    rintro v' leaf' ⟨own', hsourced⟩
    exact ⟨own', hsourced.mono hgrows hestablishes.keeps⟩
  · by_cases hlt : signal < m.recipes.list.length
    · obtain ⟨more, hmore⟩ := hgrows
      rw [← hmore, List.getElem?_append_left hlt] at hget
      exact (h.first signal recipe hget).mono hadded.vars
    · generalize hr : m'.recipes = r, hs : v.signal = s at hsignal
      rw [hr] at hget
      cases hsignal with
      | none | found => exact absurd (List.getElem?_eq_some_iff.1 hget).1 hlt
      | added =>
        have hlength : (m.recipes.add own).list.length = m.recipes.list.length + 1 :=
          List.length_append
        obtain rfl : signal = m.recipes.list.length := by
          have := (List.getElem?_eq_some_iff.1 hget).1
          omega
        obtain rfl : own = recipe := Option.some.inj (List.getElem?_concat_length.symm.trans hget)
        have hvars := h.vars.length_eq
        refine ⟨leaves.length, leaf, v, List.getElem?_concat_length, hadded.asked, ?_, hs,
          fun v' hv' heq => ?_⟩
        · rw [hadded.vars, ← hvars, List.getElem?_concat_length]
        · rw [hadded.vars, List.take_left' hvars] at hv'
          exact Nat.lt_irrefl _ (h.signal_lt hv' heq)

/-- A scope that is added. -/
theorem Mapped.scope {leaves : List Leaf} {name : String} {parent : Option Nat} {kind : String}
    {empty : Bool} {index : Nat} (h : Mapped t m leaves)
    (hscope : m.scope name parent kind empty w = (.ok (m', index), w')) : Mapped t m' leaves := by
  obtain ⟨_, w₁, -, hpure⟩ := Decoder.bind_eq_ok.1 hscope
  cases hpure
  refine ⟨h.table, h.kinds, h.vars.imp ?_, h.first⟩
  rintro v leaf ⟨own, hsourced⟩
  exact ⟨own, hsourced.mono List.prefix_rfl fun _ _ hget => hget⟩

end

/-! ## Objects and sections -/

section
variable {t : Types} {direction : Direction} {leaves : List Leaf}

mutual

/-- A tree that is placed adds its leaves. -/
theorem Tree.place_mapped : ∀ (tree : Tree) (parent : Option Nat) (m m' : Mapper) (w w' : Wire)
    (ids : List Nat) (leaves : List Leaf), tree.Every (LeafKind t) →
    tree.place t direction parent m w = (.ok m', w') →
    Decoder.times uleb tree.scalars w = (.ok ids, w') → Mapped t m leaves →
    Mapped t m' (leaves ++ tree.leaves parent m.scopes.length ids)
  | .leaf name type range scalars, parent, m, m', w, w', ids, leaves, hkind, h, hids, hm => by
    obtain ⟨_, w₁, hname, h₁⟩ := Decoder.bind_eq_ok.1 h
    obtain ⟨left, w₂, hlook, h₂⟩ := Decoder.bind_eq_ok.1 h₁
    obtain ⟨_, w₃, hleft, h₃⟩ := Decoder.bind_eq_ok.1 h₂
    obtain ⟨ids', w₄, hids', hleaf⟩ := Decoder.bind_eq_ok.1 h₃
    have hname' := Still.ok (.ensure _ _) hname
    have hleft' := Still.ok (.ensure _ _) hleft
    cases hlook
    subst hleft' hname'
    obtain rfl : ids' = ids := by
      have := hids'.symm.trans (hids.trans (congrArg (Prod.mk _) (Mapper.leaf_ok hleaf).1))
      cases this
      rfl
    obtain ⟨own, v, storage, n, hadded⟩ := leaf_added hleaf
    have hlength : ids'.length = scalars := times_length hids'
    exact hm.leaf hadded (hlength ▸ hkind)
  | .group name kind elements children, parent, m, m', w, w', ids, leaves, hkind, h, hids, hm => by
    obtain ⟨_, w₁, hname, h₁⟩ := Decoder.bind_eq_ok.1 h
    obtain ⟨⟨m₁, scope⟩, w₂, hgroup, hchildren⟩ := Decoder.bind_eq_ok.1 h₁
    have hname' := Still.ok (.ensure _ _) hname
    obtain ⟨hstay, hscope, hopened⟩ : w₂ = w₁ ∧ scope = m.scopes.length ∧
      Mapper.Placed t direction [groupScope name parent kind] [] _ m m₁ := group_ok hgroup
    have hlength : m₁.scopes.length = m.scopes.length + 1 := by
      rw [hopened.scopes, List.length_append, List.length_singleton]
    obtain ⟨⟨m₂, index⟩, w₃, hadd, hrest⟩ := Decoder.bind_eq_ok.1 hgroup
    obtain ⟨_, w₄, -, hpure⟩ := Decoder.bind_eq_ok.1 hrest
    cases hpure
    subst hstay hname' hscope
    have hplaced := placeAll_mapped children (some m.scopes.length) m₁ m' _ w' ids leaves hkind
      hchildren hids (hm.scope hadd)
    rw [hlength] at hplaced
    exact hplaced

/-- Trees that are placed add their leaves. -/
theorem placeAll_mapped : ∀ (trees : List Tree) (parent : Option Nat) (m m' : Mapper) (w w' : Wire)
    (ids : List Nat) (leaves : List Leaf), everyAll (LeafKind t) trees →
    placeAll t direction trees parent m w = (.ok m', w') →
    Decoder.times uleb (scalarsAll trees) w = (.ok ids, w') → Mapped t m leaves →
    Mapped t m' (leaves ++ leavesAll trees parent m.scopes.length ids)
  | [], parent, m, m', w, w', ids, leaves, _, h, hids, hm => by
    cases h
    rw [leavesAll, List.append_nil]
    exact hm
  | tree :: trees, parent, m, m', w, w', ids, leaves, hkind, h, hids, hm => by
    obtain ⟨m₁, w₁, hfirst, hrest⟩ := Decoder.bind_eq_ok.1 h
    obtain ⟨ids₁, hids₁, hplaced⟩ := tree.place_ok parent m m₁ w w₁ hfirst
    obtain ⟨ids₂, hids₂, -⟩ := placeAll_ok trees parent m₁ m' w₁ w' hrest
    obtain rfl : ids = ids₁ ++ ids₂ := by
      have := hids.symm.trans (Decoder.times_append hids₁ hids₂)
      cases this
      rfl
    have htree := tree.place_mapped parent m m₁ w w₁ ids₁ leaves hkind.1 hfirst hids₁ hm
    have htrees := placeAll_mapped trees parent m₁ m' w₁ w' ids₂ _ hkind.2 hrest hids₂ htree
    have hlength := times_length hids₁
    rw [hplaced.scopes, List.length_append, List.append_assoc] at htrees
    rw [leavesAll, List.take_left' hlength, List.drop_left' hlength]
    exact htrees

end

/-- An object that is accepted adds its leaves. -/
theorem object_mapped (ht : t.WellFormed) {id : Nat} (hid : t.IsBounded id) {m m' : Mapper}
    {name : String} {parent : Option Nat} {w w' : Wire}
    (hobject : m.object t name parent id direction w = (.ok m', w')) (hm : Mapped t m leaves) :
    ∃ ids, Decoder.times uleb ((t.scalars? id).getD 0) w = (.ok ids, w') ∧
      m'.scopes = m.scopes ++ (t.tree name id).scopes parent m.scopes.length ∧
      Mapped t m' (leaves ++ (t.tree name id).leaves parent m.scopes.length ids) := by
  rw [object_eq ht hid] at hobject
  obtain ⟨ids, hids, hplaced⟩ := (t.tree name id).place_ok parent m m' w w' hobject
  obtain ⟨n, hn⟩ := Option.isSome_iff_exists.1 hid
  have hscalars : (t.tree name id).scalars = n :=
    ht.layout_scalars t.nodes.length id name n hid.lt hn
  have hkinds : (t.tree name id).Every (LeafKind t) :=
    ht.layout_every t.nodes.length id name hid.lt hid
  refine ⟨ids, ?_, hplaced.scopes,
    (t.tree name id).place_mapped parent m m' w w' ids leaves hkinds hobject hids hm⟩
  rw [hn, Option.getD_some, ← hscalars]
  exact hids

/-- What the entries of a section add, by induction on the fuel. -/
theorem sectionLoop_mapped (ht : t.WellFormed) (fuel : Nat) :
    ∀ (s last : SectionState) (w w' : Wire)
    (leaves : List Leaf), sectionLoop t fuel s w = (.ok last, w') → Mapped t s.mapper leaves →
    ∃ more, leavesLoop t fuel s.mapper.scopes.length s.stack w = (.ok more, w') ∧
      Mapped t last.mapper (leaves ++ more) := by
  induction fuel with
  | zero => exact fun _ _ _ _ _ h => by cases h
  | succ fuel ih =>
    intro s last w w' leaves h hm
    obtain ⟨entry, w₁, hentry, hrest⟩ := Decoder.bind_eq_ok.1 h
    rw [leavesLoop, Decoder.bind_of_ok hentry]
    cases entry with
    | stop =>
      cases hrest
      exact ⟨[], rfl, (List.append_nil leaves).symm ▸ hm⟩
    | close =>
      obtain ⟨s', w₂, happly, hloop⟩ := Decoder.bind_eq_ok.1 hrest
      obtain ⟨m, stack⟩ := s
      cases stack with
      | nil => cases happly
      | cons scope stack =>
        cases happly
        exact ih _ last _ w' leaves hloop hm
    | object name id direction =>
      obtain ⟨s', w₂, happly, hloop⟩ := Decoder.bind_eq_ok.1 hrest
      obtain ⟨m, w₃, hobject, hpure⟩ := Decoder.bind_eq_ok.1 happly
      cases hpure
      have hid := readEntry_bounded t w _ w₁ hentry name id direction rfl
      obtain ⟨ids, hids, hscopes, hmapped⟩ := object_mapped ht hid hobject hm
      obtain ⟨more, hmore, hlast⟩ := ih _ last _ w' _ hloop hmapped
      rw [hscopes, List.length_append] at hmore
      refine ⟨(t.tree name id).leaves s.stack.head? s.mapper.scopes.length ids ++ more, ?_,
        (List.append_assoc ..) ▸ hlast⟩
      exact Decoder.bind_eq_ok.2 ⟨ids, _, hids, Decoder.bind_eq_ok.2 ⟨more, w', hmore, rfl⟩⟩
    | scope name kind opens =>
      obtain ⟨s', w₂, happly, hloop⟩ := Decoder.bind_eq_ok.1 hrest
      obtain ⟨⟨m, index⟩, w₃, hscope, hpure⟩ := Decoder.bind_eq_ok.1 happly
      cases hpure
      obtain ⟨hstay, rfl, hplaced⟩ : w₂ = w₁ ∧ index = s.mapper.scopes.length ∧
        Mapper.Placed t .unknown _ _ _ s.mapper m := Mapper.scope_ok hscope
      obtain ⟨more, hmore, hlast⟩ := ih _ last _ w' leaves hloop (hm.scope hscope)
      rw [hplaced.scopes, List.length_append, List.length_singleton, hstay] at hmore
      exact ⟨more, hmore, hlast⟩

/-- The mapper before the entries of a section. -/
theorem start_mapped (t : Types) : Decoder.Ensures (fun s : SectionState => Mapped t s.mapper [] ∧
    s.mapper.scopes = [] ∧ s.stack = []) SectionState.start := by
  intro w s w' h
  obtain ⟨_, _, -, h₁⟩ := Decoder.bind_eq_ok.1 h
  obtain ⟨_, _, -, h₂⟩ := Decoder.bind_eq_ok.1 h₁
  obtain ⟨_, _, -, h₃⟩ := Decoder.bind_eq_ok.1 h₂
  obtain ⟨maxId, _, -, h₄⟩ := Decoder.bind_eq_ok.1 h₃
  obtain ⟨scalarTypes, w₅, hlook, hpure⟩ := Decoder.bind_eq_ok.1 h₄
  cases hlook
  cases hpure
  exact ⟨⟨ScalarTable.new_sound maxId w', nofun, .nil, nofun⟩, rfl, rfl⟩

/-- What a section that is accepted declares: the leaves that its objects expand to. -/
theorem read_mapped (ht : t.WellFormed) {declarations : Declarations} {w w' : Wire}
    (h : Declarations.read t w = (.ok declarations, w')) :
    ∃ leaves m, sectionLeaves t w = (.ok leaves, w') ∧ Mapped t m leaves ∧
      declarations.vars = m.vars ∧ declarations.recipes = m.recipes.list ∧
      declarations.active = m.scalarTypes.intoActive t := by
  obtain ⟨s, w₁, hstart, h₁⟩ := Decoder.bind_eq_ok.1 h
  obtain ⟨fuel, w₂, hfuel, h₂⟩ := Decoder.bind_eq_ok.1 h₁
  obtain ⟨last, w₃, hloop, h₃⟩ := Decoder.bind_eq_ok.1 h₂
  obtain ⟨_, w₄, hclosed, hpure⟩ := Decoder.bind_eq_ok.1 h₃
  have hstay : w₄ = w₃ := Still.ok (.ensure _ _) hclosed
  cases hfuel
  cases hpure
  subst hstay
  obtain ⟨hmapped, hscopes, hstack⟩ := start_mapped t w s w₁ hstart
  obtain ⟨leaves, hleaves, hlast⟩ := sectionLoop_mapped ht _ s last _ _ [] hloop hmapped
  rw [hscopes, hstack] at hleaves
  refine ⟨leaves, last.mapper, ?_, hlast, rfl, rfl, rfl⟩
  exact Decoder.bind_eq_ok.2 ⟨s, _, hstart, Decoder.bind_eq_ok.2 ⟨_, _, rfl, hleaves⟩⟩

end

end Ondas.Ghw
