import Ondas.Ghw.Expansion

/-!
# What an object adds to the hierarchy

A tree that is placed reads as many scalar IDs as it has scalars and adds its scopes and its leaves
to the mapper, one after the other (`Tree.place_ok`, by induction on the tree). The errors of a
missing bound, of an index outside its type and of a vector without array are none of its errors
(`Tree.place_clean`). With `object_eq` this is what `Mapper.object` does (`object_layout`).
-/

namespace Ondas.Ghw

open Library Wire Ondas.Ghw.Types

/-! ## Reads that stay -/

/-- A read that leaves the wire as it is. -/
def Still {α : Type} (x : Read α) : Prop := ∀ w, (x w).2 = w

section
variable {α β : Type} {x : Read α} {f : α → Read β}

theorem Still.pure (a : α) : Still (Pure.pure a : Read α) := fun _ => rfl

theorem Still.fail (error : Wire → Error) : Still (Decoder.fail error : Read α) := fun _ => rfl

/-- A check leaves the input where it is. -/
theorem Still.ensure (condition : Bool) (error : Wire → Error) :
    Still (ensure condition error) := by
  cases condition with
  | false => exact .fail error
  | true => exact .pure ()

/-- Two parts that leave the input leave it together. -/
theorem Still.bind (hx : Still x) (hf : ∀ a, Still (f a)) : Still (x >>= f) := by
  intro w
  have hstay := hx w
  rcases hrun : x w with ⟨e | a, w'⟩ <;> rw [hrun] at hstay
  · rw [Decoder.bind_of_error hrun]
    exact hstay
  · rw [Decoder.bind_of_ok hrun, hf a w']
    exact hstay

/-- What is left where it was is the input of before. -/
theorem Still.ok (hx : Still x) {w w' : Wire} {a : α} (h : x w = (.ok a, w')) : w' = w := by
  have := hx w
  rw [h] at this
  exact this

end

namespace Mapper

section
variable {t : Types} {m m' : Mapper} {direction : Direction} {w w' : Wire}

/-- Establishing a scalar reads nothing. -/
theorem establish_still (t : Types) (maxId scalarType : Nat) (storage : Storage)
    (literals : List Nat) (ids : List Nat) (table : ScalarTable) :
    Still (establish t maxId scalarType storage literals ids table) := by
  induction ids generalizing table with
  | nil => exact .pure table
  | cons id ids ih =>
    unfold establish
    refine (Still.ensure _ _).bind fun _ => ?_
    split
    · split
      · exact .fail _
      · exact (Still.ensure _ _).bind fun _ => ih table
    · exact ih _

/-- Nor does collecting the literals that a subtype allows. -/
theorem allowedLoop_still (t : Types) (fuel node : Nat) (allowed : List Bool) :
    Still (allowedLoop t fuel node allowed) := by
  induction fuel generalizing node allowed with
  | zero => exact .pure allowed
  | succ fuel ih =>
    unfold allowedLoop
    split
    · exact ih _ _
    · split
      · exact .fail _
      · exact ih _ _
    · exact .pure allowed

/-- Nor does looking up the enumeration of a type. -/
theorem enumeration_still (t : Types) (scalarType : Nat) (enumerated : Bool) (literals : List Nat)
    (width : Nat) (encoding : Encoding) :
    Still (enumeration t scalarType enumerated literals width encoding) := by
  unfold enumeration
  split
  · exact (allowedLoop_still _ _ _ _).bind fun _ => .pure _
  · exact .pure none

/-- Nor does finding the type of a leaf. -/
theorem leafType_still (t : Types) (id : Nat) : Still (leafType t id) := by
  unfold leafType
  split
  · split
    · exact .pure _
    · exact .fail _
  · exact .pure id

/-! ## Declarations that are added -/

/-- The variable shows a leaf, and its recipe reads the IDs of the leaf. -/
structure Shows (t : Types) (direction : Direction) (m : Mapper) (v : VariableData) (leaf : Leaf) :
    Prop where
  name : v.name = leaf.name
  parent : v.parent = leaf.parent
  range : v.range = leaf.range
  typeName : v.typeName = t.name leaf.type
  direction : v.direction = direction
  ids : match v.signal with
    | none => leaf.ids = []
    | some signal => ∃ recipe, m.recipes.list[signal]? = some recipe ∧ recipe.ids = leaf.ids

/-- The mapper with some new scopes and leaves, so many of the scopes counted as empty ones. -/
structure Placed (t : Types) (direction : Direction) (scopes : List ScopeData) (leaves : List Leaf)
    (empties : Nat) (m m' : Mapper) : Prop where
  scopes : m'.scopes = m.scopes ++ scopes
  vars : ∃ vars, m'.vars = m.vars ++ vars ∧ List.Forall₂ (Shows t direction m') vars leaves
  recipes : m.recipes.list <+: m'.recipes.list
  counted : m'.emptyScopes = m.emptyScopes + empties
  limit : m.emptyScopes ≤ emptyScopeLimit → m'.emptyScopes ≤ emptyScopeLimit

/-- A variable keeps its recipe when there are more. -/
theorem Shows.mono {v : VariableData} {leaf : Leaf} (h : Shows t direction m v leaf)
    (hrecipes : m.recipes.list <+: m'.recipes.list) : Shows t direction m' v leaf := by
  refine ⟨h.name, h.parent, h.range, h.typeName, h.direction, ?_⟩
  have hids := h.ids
  split
  · next hsignal =>
    rw [hsignal] at hids
    exact hids
  · next signal hsignal =>
    rw [hsignal] at hids
    obtain ⟨recipe, hrecipe, heq⟩ := hids
    obtain ⟨more, hmore⟩ := hrecipes
    refine ⟨recipe, ?_, heq⟩
    rw [← hmore, List.getElem?_append_left (List.getElem?_eq_some_iff.1 hrecipe).1, hrecipe]

theorem Placed.refl (t : Types) (direction : Direction) (m : Mapper) :
    Placed t direction [] [] 0 m m :=
  ⟨(List.append_nil _).symm, ⟨[], (List.append_nil _).symm, .nil⟩, List.prefix_rfl, rfl, id⟩

/-- Declarations are added one after the other. -/
theorem Placed.trans {m'' : Mapper} {scopes scopes' : List ScopeData} {leaves leaves' : List Leaf}
    {empties empties' : Nat} (h : Placed t direction scopes leaves empties m m')
    (h' : Placed t direction scopes' leaves' empties' m' m'') :
    Placed t direction (scopes ++ scopes') (leaves ++ leaves') (empties + empties') m m'' := by
  obtain ⟨vars, hvars, hshows⟩ := h.vars
  obtain ⟨vars', hvars', hshows'⟩ := h'.vars
  refine ⟨?_, ⟨vars ++ vars', ?_, ?_⟩, h.recipes.trans h'.recipes, ?_, fun hlimit =>
    h'.limit (h.limit hlimit)⟩
  · rw [h'.scopes, h.scopes, List.append_assoc]
  · rw [hvars', hvars, List.append_assoc]
  · exact List.rel_append (hshows.imp fun _ _ hs => hs.mono h'.recipes) hshows'
  · rw [h'.counted, h.counted, Nat.add_assoc]

/-- A signal leads to a recipe of its IDs, and the other recipes stay. -/
theorem leafSignal_eq (r : Recipes) (recipe : Recipe) :
    r.list <+: (r.leafSignal recipe).1.list ∧
      match (r.leafSignal recipe).2 with
      | none => recipe.ids = []
      | some signal => ∃ found, (r.leafSignal recipe).1.list[signal]? = some found ∧
          found.ids = recipe.ids := by
  unfold Recipes.leafSignal
  split
  · next hnone => exact ⟨List.prefix_rfl, hnone⟩
  · unfold Recipes.signal
    cases hfind : r.keys.find? fun entry => entry.1 == (recipe.ids, recipe.encoding) with
    | none => exact ⟨List.prefix_append _ _, recipe, List.getElem?_concat_length, rfl⟩
    | some entry =>
      obtain ⟨found, hfound, hkey⟩ := r.keyed entry (List.mem_of_find?_eq_some hfind)
      have heq : entry.1 = (recipe.ids, recipe.encoding) := by
        simpa using List.find?_some hfind
      exact ⟨List.prefix_rfl, found, hfound, congrArg Prod.fst (hkey.trans heq)⟩

/-- A leaf is one variable, and reads nothing. -/
theorem leaf_ok {name : String} {parent : Option Nat} {id : Nat} {ids : List Nat}
    {range : Option BitRange}
    (hleaf : m.leaf t name parent id ids direction range w = (.ok m', w')) :
    w' = w ∧ Placed t direction [] [⟨name, parent, id, range, ids⟩] 0 m m' := by
  obtain ⟨scalarType, w₁, htype, h⟩ := Decoder.bind_eq_ok.1 hleaf
  have hstay := (leafType_still t id).ok htype
  clear hleaf htype
  subst hstay
  cases hscalar : t.scalar scalarType with
  | none => rw [hscalar] at h; cases h
  | some scalar =>
    obtain ⟨storage, literals, wkt⟩ := scalar
    rw [hscalar] at h
    obtain ⟨scalarTypes, w₂, hestablish, hrest⟩ := Decoder.bind_eq_ok.1 h
    obtain ⟨_, w₃, hwidth, hrest'⟩ := Decoder.bind_eq_ok.1 hrest
    obtain ⟨enumeration, w₄, henumeration, hpure⟩ := Decoder.bind_eq_ok.1 hrest'
    have hstay : w₄ = w₁ := (Still.ok (enumeration_still _ _ _ _ _ _) henumeration).trans
      ((Still.ok (.ensure _ _) hwidth).trans
        (Still.ok (establish_still _ _ _ _ _ _ _) hestablish))
    cases hpure
    obtain ⟨hrecipes, hsignal⟩ := leafSignal_eq m.recipes ⟨ids,
      if storage == .f64 then Encoding.real else .bits
        (if (t.scalar id).isNone then ids.length else width (storage, literals, wkt)),
      scalarType, (t.scalar id).isNone⟩
    refine ⟨hstay, (List.append_nil _).symm, ⟨_, rfl, .cons ?_ .nil⟩, hrecipes, rfl, fun h => h⟩
    exact ⟨rfl, rfl, rfl, rfl, rfl, hsignal⟩

/-- A scope is added with the next number. -/
theorem scope_ok {name : String} {parent : Option Nat} {kind : String} {empty : Bool} {index : Nat}
    (hscope : m.scope name parent kind empty w = (.ok (m', index), w')) :
    w' = w ∧ index = m.scopes.length ∧
      Placed t direction [groupScope name parent kind] [] (if empty then 1 else 0) m m' := by
  obtain ⟨_, w₁, hensure, h⟩ := Decoder.bind_eq_ok.1 hscope
  have hlimit := ensure_ensures _ _ _ _ _ hensure
  have hstay := Still.ok (.ensure _ _) hensure
  cases h
  refine ⟨hstay, rfl, rfl, ⟨[], (List.append_nil _).symm, .nil⟩, List.prefix_rfl, ?_, fun hle => ?_⟩
  · dsimp only
    split <;> rfl
  · dsimp only
    cases empty with
    | false => exact hle
    | true =>
      have hne : m.emptyScopes ≠ emptyScopeLimit := by simpa using hlimit
      show m.emptyScopes + 1 ≤ emptyScopeLimit
      omega

end

end Mapper

/-! ## Trees that are placed -/

open Mapper

mutual

/-- The groups of a tree without scalars. -/
def Tree.empties : Tree → Nat
  | .leaf .. => 0
  | .group _ _ _ children => (if scalarsAll children == 0 then 1 else 0) + emptiesAll children

/-- The groups of some trees without scalars. -/
def emptiesAll : List Tree → Nat
  | [] => 0
  | tree :: trees => tree.empties + emptiesAll trees

end

/-- What placing some trees does: it reads their scalar IDs, and adds their scopes and leaves. -/
def PlacedAll (t : Types) (direction : Direction) (trees : List Tree) (parent : Option Nat)
    (m m' : Mapper) (w w' : Wire) : Prop :=
  ∃ ids, Decoder.times uleb (scalarsAll trees) w = (.ok ids, w') ∧
    Placed t direction (scopesAll trees parent m.scopes.length)
      (leavesAll trees parent m.scopes.length ids) (emptiesAll trees) m m'

section
variable {t : Types} {direction : Direction} {m m' : Mapper} {w w' : Wire}

theorem times_length {n : Nat} {ids : List Nat} (h : Decoder.times uleb n w = (.ok ids, w')) :
    ids.length = n :=
  ((Decoder.Ensures.trivial uleb).times n w ids w' h).1

/-- Opening a group adds its scope. -/
theorem group_ok {name : String} {parent : Option Nat} {kind : String} {elements index : Nat}
    {empty : Bool} (hgroup : m.group name parent kind elements empty w = (.ok (m', index), w')) :
    w' = w ∧ index = m.scopes.length ∧
      Placed t direction [groupScope name parent kind] [] (if empty then 1 else 0) m m' := by
  obtain ⟨⟨m₁, scope⟩, w₁, hscope, hrest⟩ := Decoder.bind_eq_ok.1 hgroup
  obtain ⟨_, w₂, hensure, hpure⟩ := Decoder.bind_eq_ok.1 hrest
  obtain ⟨hstay, hindex, hplaced⟩ := scope_ok hscope
  have hstay' := Still.ok (.ensure _ _) hensure
  cases hpure
  exact ⟨hstay'.trans hstay, hindex, hplaced⟩

mutual

/-- A tree that is placed. -/
theorem Tree.place_ok : ∀ (tree : Tree) (parent : Option Nat) (m m' : Mapper) (w w' : Wire),
    tree.place t direction parent m w = (.ok m', w') →
      ∃ ids, Decoder.times uleb tree.scalars w = (.ok ids, w') ∧
        Placed t direction (tree.scopes parent m.scopes.length)
          (tree.leaves parent m.scopes.length ids) tree.empties m m'
  | .leaf name type range scalars, parent, m, m', w, w', h => by
    obtain ⟨_, w₁, hname, h₁⟩ := Decoder.bind_eq_ok.1 h
    obtain ⟨left, w₂, hlook, h₂⟩ := Decoder.bind_eq_ok.1 h₁
    obtain ⟨_, w₃, hleft, h₃⟩ := Decoder.bind_eq_ok.1 h₂
    obtain ⟨ids, w₄, hids, hleaf⟩ := Decoder.bind_eq_ok.1 h₃
    obtain ⟨rfl, hplaced⟩ := leaf_ok hleaf
    have hname' := Still.ok (.ensure _ _) hname
    have hleft' := Still.ok (.ensure _ _) hleft
    cases hlook
    subst hleft' hname'
    exact ⟨ids, hids, hplaced⟩
  | .group name kind elements children, parent, m, m', w, w', h => by
    obtain ⟨_, w₁, hname, h₁⟩ := Decoder.bind_eq_ok.1 h
    obtain ⟨⟨m₁, scope⟩, w₂, hgroup, hchildren⟩ := Decoder.bind_eq_ok.1 h₁
    have hname' := Still.ok (.ensure _ _) hname
    obtain ⟨hstay, hscope, hopened⟩ : w₂ = w₁ ∧ scope = m.scopes.length ∧
      Placed t direction [groupScope name parent kind] [] _ m m₁ := group_ok hgroup
    obtain ⟨ids, hids, hplaced⟩ := placeAll_ok children (some scope) m₁ m' w₂ w' hchildren
    have hlength : m₁.scopes.length = m.scopes.length + 1 := by
      rw [hopened.scopes, List.length_append, List.length_singleton]
    rw [hlength, hscope] at hplaced
    subst hstay hname'
    exact ⟨ids, hids, hopened.trans hplaced⟩

/-- Trees that are placed. -/
theorem placeAll_ok : ∀ (trees : List Tree) (parent : Option Nat) (m m' : Mapper) (w w' : Wire),
    placeAll t direction trees parent m w = (.ok m', w') →
      PlacedAll t direction trees parent m m' w w'
  | [], parent, m, m', w, w', h => by
    cases h
    exact ⟨[], rfl, .refl t direction m⟩
  | tree :: trees, parent, m, m', w, w', h => by
    obtain ⟨m₁, w₁, hfirst, hrest⟩ := Decoder.bind_eq_ok.1 h
    obtain ⟨ids, hids, hplaced⟩ := tree.place_ok parent m m₁ w w₁ hfirst
    obtain ⟨ids', hids', hplaced'⟩ := placeAll_ok trees parent m₁ m' w₁ w' hrest
    rw [hplaced.scopes, List.length_append] at hplaced'
    have htrees := hplaced.trans hplaced'
    refine ⟨ids ++ ids', Decoder.times_append hids hids', ?_⟩
    have hlength := times_length hids
    rw [scopesAll, leavesAll, emptiesAll, List.take_left' hlength, List.drop_left' hlength]
    exact htrees

end

end

/-! ## Errors that are never met -/

/-- The errors of branches that a well-formed table rules out. -/
def unreachableErrors : List String :=
  ["unbounded hierarchy array", "missing array bounds", "enum array index out of range",
    "array index overflow", "vector without array type"]

/-- None of these is an error of a read. -/
def Clean {α : Type} (x : Read α) : Prop :=
  ∀ w e w', x w = (.error e, w') → ∀ text ∈ unreachableErrors, e ≠ malformed text w'

/-- The message of an error can be told from its text. -/
theorem malformed_inj {text text' : String} {w : Wire} (h : malformed text w = malformed text' w) :
    text = text' := by
  unfold malformed at h
  injection h with _ _ h
  have htext : toString text = toString text' := by simpa using h
  exact htext

section
variable {α β : Type} {x y : Read α} {f : α → Read β}

theorem Clean.pure (a : α) : Clean (Pure.pure a : Read α) := fun _ _ _ h => by cases h

/-- A malformed input is clean when its text is none of the five. -/
theorem Clean.malformed {text : String} (h : text ∉ unreachableErrors) :
    Clean (Decoder.fail (malformed text) : Read α) := by
  intro w e w' hrun text' htext' heq
  cases hrun
  exact h (malformed_inj heq ▸ htext')

/-- So is an unsupported input. -/
theorem Clean.unsupported (text : String) : Clean (Decoder.fail (unsupported text) : Read α) := by
  intro w e w' hrun text' _ heq
  cases hrun
  cases heq

theorem Clean.look (g : Wire → α) : Clean (Decoder.look g : Read α) := fun _ _ _ h => by cases h

/-- Two clean parts are clean together. -/
theorem Clean.bind (hx : Clean x) (hf : ∀ a, Clean (f a)) : Clean (x >>= f) := by
  intro w e w' hrun
  rcases Decoder.bind_eq_error.1 hrun with hfirst | ⟨a, w₁, -, hsecond⟩
  · exact hx w e w' hfirst
  · exact hf a w₁ e w' hsecond

/-- A choice between clean parts is clean. -/
theorem Clean.ite {p : Prop} [Decidable p] (hx : Clean x) (hy : Clean y) :
    Clean (if p then x else y) := by
  split
  · exact hx
  · exact hy

theorem Clean.ensure {condition : Bool} {error : Wire → Error}
    (h : Clean (Decoder.fail error : Read Unit)) : Clean (ensure condition error) :=
  .ite (.pure ()) h

/-- A clean part that is repeated is clean. -/
theorem Clean.times (hx : Clean x) (n : Nat) : Clean (Decoder.times x n) := by
  induction n with
  | zero => exact .pure []
  | succ n ih => exact hx.bind fun _ => ih.bind fun _ => .pure _

/-- Reading a byte is clean. -/
theorem clean_byte : Clean byte := by
  intro w e w' hrun text htext heq
  cases hrest : w.rest with
  | nil =>
    obtain ⟨v, hbyte, hsame⟩ := byte_end hrest
    rw [hbyte] at hrun
    cases hrun
    unfold eof at heq
    split at heq
    · cases heq
    · rw [← hsame.malformed] at heq
      have hnot : "truncated field" ∉ unreachableErrors := by decide
      exact hnot (malformed_inj heq ▸ htext)
  | cons b bs =>
    obtain ⟨v, hbyte, -⟩ := byte_eq hrest
    rw [hbyte] at hrun
    cases hrun

/-- Reading a number is clean. -/
theorem clean_uleb : Clean uleb := by
  have hloop : ∀ fuel group (value : Nat), Clean
      (lebLoop ulebTurn "ULEB128 exceeds 32 bits" "unterminated ULEB128" fuel group value) := by
    intro fuel
    induction fuel with
    | zero => exact fun _ _ => .malformed (by decide)
    | succ fuel ih =>
      intro group value
      refine clean_byte.bind fun b => ?_
      cases ulebTurn group value b with
      | exceeds => exact .malformed (by decide)
      | more value => exact ih _ _
      | done result => exact .pure _
  exact clean_byte.bind fun _ => .ite (.pure _) (hloop _ _ _)

end

namespace Mapper

section
variable {t : Types} {m : Mapper} {direction : Direction}

theorem clean_scope (m : Mapper) (name : String) (parent : Option Nat) (kind : String)
    (empty : Bool) : Clean (m.scope name parent kind empty) :=
  (Clean.ensure (.unsupported _)).bind fun _ => .pure _

/-- Establishing a scalar is clean. -/
theorem clean_establish (t : Types) (maxId scalarType : Nat) (storage : Storage)
    (literals ids : List Nat) (table : ScalarTable) :
    Clean (establish t maxId scalarType storage literals ids table) := by
  induction ids generalizing table with
  | nil => exact .pure table
  | cons id ids ih =>
    unfold establish
    refine (Clean.ensure (.malformed (by decide))).bind fun _ => ?_
    split
    · split
      · exact .malformed (by decide)
      · exact (Clean.ensure (.malformed (by decide))).bind fun _ => ih table
    · exact ih _

/-- Looking up an enumeration is clean. -/
theorem clean_enumeration (t : Types) (scalarType : Nat) (enumerated : Bool) (literals : List Nat)
    (width : Nat) (encoding : Encoding) :
    Clean (enumeration t scalarType enumerated literals width encoding) := by
  have hloop : ∀ fuel node allowed, Clean (allowedLoop t fuel node allowed) := by
    intro fuel
    induction fuel with
    | zero => exact fun _ _ => .pure _
    | succ fuel ih =>
      intro node allowed
      unfold allowedLoop
      split
      · exact ih _ _
      · split
        · exact .malformed (by decide)
        · exact ih _ _
      · exact .pure _
  exact .ite ((hloop _ _ _).bind fun _ => .pure _) (.pure none)

/-- A type of a leaf: a scalar, or an array as a vector. -/
def IsLeaf (t : Types) (id : Nat) : Prop := ∃ scalarType, leafType t id = pure scalarType

/-- A leaf of a type that may be one is clean. -/
theorem clean_leaf {name : String} {parent : Option Nat} {id : Nat} {ids : List Nat}
    {range : Option BitRange} (hid : IsLeaf t id) :
    Clean (m.leaf t name parent id ids direction range) := by
  obtain ⟨scalarType, htype⟩ := hid
  unfold leaf
  dsimp only
  rw [htype, pure_bind]
  split
  · exact .malformed (by decide)
  · refine (clean_establish _ _ _ _ _ _ _).bind fun _ => ?_
    refine (Clean.ensure (.unsupported _)).bind fun _ => ?_
    exact (clean_enumeration _ _ _ _ _ _).bind fun _ => .pure _

end

end Mapper

mutual

/-- The leaves of a tree have types of leaves. -/
def Tree.Typed (t : Types) : Tree → Prop
  | .leaf _ type _ _ => IsLeaf t type
  | .group _ _ _ children => TypedAll t children

/-- The leaves of some trees have types of leaves. -/
def TypedAll (t : Types) : List Tree → Prop
  | [] => True
  | tree :: trees => tree.Typed t ∧ TypedAll t trees

end

section
variable {t : Types} {direction : Direction}

mutual

/-- Placing a tree does not meet these errors. -/
theorem Tree.place_clean : ∀ (tree : Tree) (parent : Option Nat) (m : Mapper), tree.Typed t →
    Clean (tree.place t direction parent m)
  | .leaf name type range scalars, parent, m, htyped => by
    refine (Clean.ensure (.malformed (by decide))).bind fun _ => (Clean.look _).bind fun _ => ?_
    refine (Clean.ensure (.malformed (by decide))).bind fun _ => ?_
    exact (clean_uleb.times scalars).bind fun _ => clean_leaf htyped
  | .group name kind elements children, parent, m, htyped => by
    refine (Clean.ensure (.malformed (by decide))).bind fun _ => ?_
    have hgroup : Clean (m.group name parent kind elements (scalarsAll children == 0)) :=
      (clean_scope _ _ _ _ _).bind fun _ => (Clean.ensure (.unsupported _)).bind fun _ => .pure _
    exact hgroup.bind fun b => placeAll_clean children (some b.2) b.1 htyped

/-- Placing some trees does not meet these errors. -/
theorem placeAll_clean : ∀ (trees : List Tree) (parent : Option Nat) (m : Mapper),
    TypedAll t trees → Clean (placeAll t direction trees parent m)
  | [], _, m, _ => .pure m
  | tree :: trees, parent, m, htyped =>
    (tree.place_clean parent m htyped.1).bind fun m => placeAll_clean trees parent m htyped.2

end

mutual

/-- A condition on the type and the scalars of every leaf of a tree. -/
def Tree.Every (P : Nat → Nat → Prop) : Tree → Prop
  | .leaf _ type _ scalars => P type scalars
  | .group _ _ _ children => everyAll P children

/-- A condition on every leaf of some trees. -/
def everyAll (P : Nat → Nat → Prop) : List Tree → Prop
  | [] => True
  | tree :: trees => tree.Every P ∧ everyAll P trees

end

/-- The two kinds of leaves: a scalar has one source ID, and the elements of a vector have a marker
of a logic type. -/
inductive LeafKind (t : Types) (type : Nat) : Nat → Prop
  | scalar {scalar : Storage × List Nat × Nat} : t.scalar type = some scalar → LeafKind t type 1
  | vector {element n wkt : Nat} {indices : List Nat} {bounds : Option (List Range)}
      {storage : Storage} {literals : List Nat} :
      t.shape? (t.effective type) = some (.array element indices bounds) →
      t.scalar element = some (storage, literals, wkt) → wkt = 2 ∨ wkt = 3 → LeafKind t type n

section
variable {P : Nat → Nat → Prop}

/-- What holds of each tree of a list holds of all of them. -/
theorem everyAll_map {α : Type} {tree : α → Tree} {xs : List α}
    (h : ∀ x ∈ xs, (tree x).Every P) : everyAll P (xs.map tree) := by
  induction xs with
  | nil => trivial
  | cons x xs ih => exact ⟨h x (.head _), ih fun x' hx' => h x' (.tail _ hx')⟩

/-- What holds of the element of an array holds of each leaf below it. -/
theorem below_every {tree : String → Tree} (h : ∀ name, (tree name).Every P)
    (dimensions : List (List String)) (name : String) : (below tree dimensions name).Every P := by
  induction dimensions generalizing name with
  | nil => exact h name
  | cons names dimensions ih => exact everyAll_map fun name _ => ih name

/-- What holds of the elements of an array without empty dimensions holds of all of them. -/
theorem elementsOf_every {tree : String → Tree} {dimensions : List (List String)}
    (h : [] ∉ dimensions → ∀ name, (tree name).Every P) :
    everyAll P (elementsOf tree dimensions) := by
  cases dimensions with
  | nil => trivial
  | cons names dimensions =>
    rw [elementsOf]
    split
    · trivial
    · next hnull => exact everyAll_map fun name _ => below_every (h hnull) dimensions name

mutual

/-- Trees of such leaves are typed. -/
theorem Tree.Every.typed : ∀ {tree : Tree}, tree.Every (LeafKind t) → tree.Typed t
  | .leaf _ type _ _, h => by
    cases h with
    | scalar hscalar => exact ⟨type, by rw [leafType, hscalar]; rfl⟩
    | @vector element _ _ _ _ _ _ hshape =>
      have hscalar : t.scalar type = none := by rw [Types.scalar, hshape]
      exact ⟨element, by rw [leafType, hscalar, hshape]; rfl⟩
  | .group _ _ _ _, h => everyAll_typed h

/-- Trees of such leaves are typed. -/
theorem everyAll_typed : ∀ {trees : List Tree}, everyAll (LeafKind t) trees → TypedAll t trees
  | [], _ => trivial
  | _ :: _, h => ⟨h.1.typed, everyAll_typed h.2⟩

end

end

/-- The elements of a vector have a marker. -/
theorem isVector_marked {element : Nat} {indices : List Nat}
    (h : t.isVector element indices = true) :
    ∃ storage literals wkt, t.scalar element = some (storage, literals, wkt) ∧
    (wkt = 2 ∨ wkt = 3) := by
  unfold isVector at h
  split at h
  · obtain ⟨⟨storage, literals, wkt⟩, hscalar, hwkt⟩ :=
      (Option.any_eq_true _ _).1 (Bool.and_eq_true_iff.1 h).2
    exact ⟨storage, literals, wkt, hscalar, by simpa using hwkt⟩
  · cases h

/-- The leaves of a layout are scalars and vectors. -/
theorem Types.WellFormed.layout_every (ht : t.WellFormed) (depth : Nat) :
    ∀ (id : Nat) (name : String), id < depth → t.IsBounded id →
      (t.layout depth name id).Every (LeafKind t) := by
  induction depth with
  | zero => exact fun id _ hid => absurd hid (Nat.not_lt_zero id)
  | succ depth ih =>
    intro id name hdepth hid
    have hle := ht.sound.effective_le id
    obtain ⟨n, hn⟩ := Option.isSome_iff_exists.1 hid
    obtain ⟨shape, hshape⟩ := ht.sound.exists_shape hid
    have hcount := ht.sound.count_effective hshape hn
    rw [layout, hshape]
    cases shape with
    | scalar storage literals units wkt =>
      have hscalar : t.scalar id = some (storage, literals, wkt) := by rw [Types.scalar, hshape]
      exact .scalar hscalar
    | «alias» => exact absurd hshape (ht.sound.effective_not_alias id _ _)
    | record fields =>
      obtain ⟨counts, hcounts, -⟩ := Option.map_eq_some_iff.1 hcount
      refine everyAll_map fun field hfield => ?_
      have hlt := ht.sound.field_lt hshape hfield
      exact ih field.2 _ (by omega) (fieldCounts_bounded hcounts field hfield)
    | array element indices bounds =>
      cases bounds with
      | none => cases hcount
      | some bounds =>
        have harray := ht.array hid hshape
        have hlt := harray.element_lt
        dsimp only
        split
        · next hvector =>
          obtain ⟨storage, literals, wkt, hscalar, hwkt⟩ := isVector_marked hvector
          exact .vector hshape hscalar hwkt
        · exact elementsOf_every fun hnull name =>
            ih element name (by omega) (harray.element_bounded hnull)

end

/-! ## Objects -/

section
variable {t : Types} {direction : Direction}

mutual

/-- The leaves share out the IDs that are read, each to one of them. -/
theorem Tree.leaves_ids : ∀ (tree : Tree) (parent : Option Nat) (next : Nat) (ids : List Nat),
    ids.length = tree.scalars → (tree.leaves parent next ids).flatMap Leaf.ids = ids
  | .leaf .., _, _, ids, _ => List.append_nil ids
  | .group _ _ _ children, _, next, ids, h => leavesAll_ids children (some next) (next + 1) ids h

/-- The leaves of some trees share out the IDs that are read. -/
theorem leavesAll_ids : ∀ (trees : List Tree) (parent : Option Nat) (next : Nat) (ids : List Nat),
    ids.length = scalarsAll trees → (leavesAll trees parent next ids).flatMap Leaf.ids = ids
  | [], _, _, ids, h => (List.length_eq_zero_iff.1 h).symm
  | tree :: trees, parent, next, ids, h => by
    rw [scalarsAll] at h
    have hfirst : (ids.take tree.scalars).length = tree.scalars :=
      List.length_take_of_le (by omega)
    have hrest : (ids.drop tree.scalars).length = scalarsAll trees := by
      rw [List.length_drop]
      omega
    rw [leavesAll, List.flatMap_append, tree.leaves_ids parent next _ hfirst,
      leavesAll_ids trees parent _ _ hrest, List.take_append_drop]

end

/-- What an object that is accepted has done: it has read one source ID for each scalar of its type,
and added the scopes and the leaves of the layout, which share out these IDs. -/
structure ObjectLayout (t : Types) (direction : Direction) (name : String) (parent : Option Nat)
    (id : Nat) (m m' : Mapper) (w w' : Wire) (ids : List Nat) : Prop where
  count : t.scalars? id = some ids.length
  read : Decoder.times uleb ids.length w = (.ok ids, w')
  scopes : m'.scopes = m.scopes ++ (t.tree name id).scopes parent m.scopes.length
  vars : ∃ vars, m'.vars = m.vars ++ vars ∧ List.Forall₂ (Shows t direction m') vars
    ((t.tree name id).leaves parent m.scopes.length ids)
  shared : ((t.tree name id).leaves parent m.scopes.length ids).flatMap Leaf.ids = ids

/-- **Object expansion matches the layout.** For a bounded type of a well-formed table, an object
that is accepted has read the scalar IDs of its type in order and added the leaves of its layout,
each ID to one of them. The errors of a missing bound and of a bad index are never met, and the loop
ends. -/
theorem object_layout (ht : t.WellFormed) {id : Nat} (hid : t.IsBounded id) (m : Mapper)
    (name : String) (parent : Option Nat) (w : Wire) :
    (∀ m' w', m.object t name parent id direction w = (.ok m', w') →
      ∃ ids, ObjectLayout t direction name parent id m m' w w' ids) ∧
    (∀ e w', m.object t name parent id direction w = (.error e, w') →
      ∀ text ∈ unreachableErrors, e ≠ malformed text w') ∧
    ∀ fuel work m' w', t.objectTurns t.nodes.length id ≤ fuel →
      workLoop (Mapper.turn t direction) fuel [.object name parent id] m w =
        (.ok (work, m'), w') → work = [] := by
  rw [object_eq ht hid]
  refine ⟨fun m' w' hrun => ?_, fun e w' hrun => ?_, fun fuel work m' w' hfuel hloop => ?_⟩
  · obtain ⟨n, hn⟩ := Option.isSome_iff_exists.1 hid
    obtain ⟨ids, hids, hplaced⟩ := (t.tree name id).place_ok parent m m' w w' hrun
    have hscalars : (t.tree name id).scalars = n :=
      ht.layout_scalars t.nodes.length id name n hid.lt hn
    have hlength := times_length hids
    refine ⟨ids, ?_, hlength ▸ hids, hplaced.scopes, hplaced.vars,
      (t.tree name id).leaves_ids parent _ ids hlength⟩
    rw [hn, hlength, hscalars]
  · exact (t.tree name id).place_clean parent m
      (ht.layout_every t.nodes.length id name hid.lt hid).typed w e w' hrun
  · rw [objectLoop_eq ht hid hfuel] at hloop
    obtain ⟨m₁, w₁, -, hpure⟩ := Decoder.bind_eq_ok.1 hloop
    cases hpure
    rfl

end

/-- An array of an array of an integer, all of one position, as `nestedBytes` has it. -/
theorem object_layout_nested : ∃ t wire', Types.read ["", "integer", "vector", "field"]
      ⟨nestedBytes, none, 0, 39, false, 0, 0, 0, fun _ => 1⟩ = (.ok t, wire') ∧
    t.scalars? 5 = some 1 ∧ ∀ (m m' : Mapper) (w w' : Wire),
      m.object t "field" none 5 .implicit w = (.ok m', w') →
        ∃ ids, ids.length = 1 ∧ ObjectLayout t .implicit "field" none 5 m m' w w' ids := by
  have hcount : (Types.read ["", "integer", "vector", "field"]
      ⟨nestedBytes, none, 0, 39, false, 0, 0, 0, fun _ => 1⟩).1.toOption.bind
        (fun t => t.scalars? 5) = some 1 := by decide +kernel
  rcases hrun : Types.read ["", "integer", "vector", "field"]
      ⟨nestedBytes, none, 0, 39, false, 0, 0, 0, fun _ => 1⟩ with ⟨e | t, wire'⟩
  · rw [hrun] at hcount
    cases hcount
  · rw [hrun] at hcount
    have hone : t.scalars? 5 = some 1 := hcount
    refine ⟨t, wire', rfl, hone, fun m m' w w' hobject => ?_⟩
    obtain ⟨ids, hids⟩ : ∃ ids, ObjectLayout t .implicit "field" none 5 m m' w w' ids :=
      (object_layout (read_wellFormed _ _ _ _ hrun) (Option.isSome_iff_exists.2 ⟨1, hone⟩) m
        "field" none w).1 m' w' hobject
    refine ⟨ids, ?_, hids⟩
    have := hids.count
    rw [hone] at this
    exact (Option.some.inj this).symm

end Ondas.Ghw
