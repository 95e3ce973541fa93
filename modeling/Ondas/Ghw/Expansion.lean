import Ondas.Ghw.Mapper

/-!
# Objects and their layout

An object of a bounded type stands for a tree of declarations (`Types.layout`): a scalar or a vector
is a leaf, a record a group of its fields in order, another array a group of its elements in
row-major order, nested by dimension, each position in the direction of its range. `Tree.place`
records a tree in the mapper, group by group and leaf by leaf from left to right. The work stack of
`Mapper.object` is this recursion (`object_eq`): on well-formed tables it never gets to the errors
of a missing bound or a bad index. So an object that is accepted has read one scalar ID for each
scalar of its type, and its declarations are those of the layout (`object_layout`).
-/

namespace Ondas.Ghw

open Library Wire

/-! ## Trees of declarations -/

/-- The declarations of an object. A leaf is a variable of so many scalars, a group is a scope; the
group of an array says how many elements it has over all dimensions. -/
inductive Tree where
  | leaf (name : String) (type : Nat) (range : Option BitRange) (scalars : Nat)
  | group (name kind : String) (elements : Nat) (children : List Tree)

/-- A variable of an object, with its scalar IDs. -/
structure Leaf where
  name : String
  parent : Option Nat
  type : Nat
  range : Option BitRange
  ids : List Nat
  deriving DecidableEq, Repr

/-- The scope that a group is recorded as. -/
def groupScope (name : String) (parent : Option Nat) (kind : String) : ScopeData :=
  ⟨name, false, parent, kind, none,
  if kind ∈ ["array", "record"] then some .unpacked else none, false⟩

mutual

/-- The number of scalars of a tree. -/
def Tree.scalars : Tree → Nat
  | .leaf _ _ _ scalars => scalars
  | .group _ _ _ children => scalarsAll children

/-- The number of scalars of some trees. -/
def scalarsAll : List Tree → Nat
  | [] => 0
  | tree :: trees => tree.scalars + scalarsAll trees

end

mutual

/-- The scopes of a tree below a parent, the first of which gets the number `next`. -/
def Tree.scopes : Tree → Option Nat → Nat → List ScopeData
  | .leaf .., _, _ => []
  | .group name kind _ children, parent, next =>
    groupScope name parent kind :: scopesAll children (some next) (next + 1)

/-- The scopes of some trees below a parent. -/
def scopesAll : List Tree → Option Nat → Nat → List ScopeData
  | [], _, _ => []
  | tree :: trees, parent, next =>
    tree.scopes parent next ++ scopesAll trees parent (next + (tree.scopes parent next).length)

end

mutual

/-- The leaves of a tree, which share out some IDs from left to right. -/
def Tree.leaves : Tree → Option Nat → Nat → List Nat → List Leaf
  | .leaf name type range _, parent, _, ids => [⟨name, parent, type, range, ids⟩]
  | .group _ _ _ children, _, next, ids => leavesAll children (some next) (next + 1) ids

/-- The leaves of some trees. -/
def leavesAll : List Tree → Option Nat → Nat → List Nat → List Leaf
  | [], _, _, _ => []
  | tree :: trees, parent, next, ids =>
    tree.leaves parent next (ids.take tree.scalars) ++
      leavesAll trees parent (next + (tree.scopes parent next).length) (ids.drop tree.scalars)

end

/-- Open a group of so many elements: one without scalars counts against the limit, as its elements
would. -/
def Mapper.group (m : Mapper) (name : String) (parent : Option Nat) (kind : String) (elements : Nat)
    (empty : Bool) : Read (Mapper × Nat) := do
  let b ← m.scope name parent kind empty
  ensure (!empty || decide (elements ≤ emptyScopeLimit - b.1.emptyScopes))
    (unsupported "empty hierarchy expansion above 1000000 scopes")
  pure b

mutual

/-- Record a tree: its groups as scopes, its leaves as variables with the scalar IDs that come
next. -/
def Tree.place (t : Types) (direction : Direction) : Tree → Option Nat → Mapper → Read Mapper
  | .leaf name type range scalars, parent, m => do
    ensure (name != "") (malformed "empty object or field name")
    let left ← Decoder.look Wire.left
    ensure ((t.scalar type).isSome || decide (scalars ≤ left))
      (malformed "vector scalar IDs exceed remaining input")
    let ids ← Decoder.times uleb scalars
    m.leaf t name parent type ids direction range
  | .group name kind elements children, parent, m => do
    ensure (name != "") (malformed "empty object or field name")
    let (m, scope) ← m.group name parent kind elements (scalarsAll children == 0)
    placeAll t direction children (some scope) m

/-- Record some trees. -/
def placeAll (t : Types) (direction : Direction) : List Tree → Option Nat → Mapper → Read Mapper
  | [], _, m => pure m
  | tree :: trees, parent, m => do
    let m ← tree.place t direction parent m
    placeAll t direction trees parent m

end

/-! ## The layout of a type -/

/-- Some positions from one on, in a direction. -/
def positionsFrom (downto : Bool) : Nat → Int → List Int
  | 0, _ => []
  | n + 1, next => next :: positionsFrom downto n (if downto then next - 1 else next + 1)

/-- The positions of a range in its direction. -/
def Range.positions (range : Range) : List Int :=
  match range.integerBounds with
  | none => []
  | some ends => positionsFrom range.downto (range.span ends) ends.1

namespace Types

/-- The name of a position of an index type. -/
def componentName (t : Types) (index : Nat) (position : Int) : String :=
  match t.scalar index with
  | some (storage, labels, _) =>
    if storage.isEnum then
      let text := t.strings.getD (labels.getD position.toNat 0) ""
      s!"[{text}]"
    else s!"[{position}]"
  | none => ""

/-- The names of the positions of a dimension. -/
def componentNames (t : Types) (index : Nat) (range : Range) : List String :=
  range.positions.map (t.componentName index)

/-- The tree at a position of an array with some dimensions left, each a list of names: the element
when there are none. -/
def below (element : String → Tree) : List (List String) → String → Tree
  | [], name => element name
  | names :: dimensions, name => .group name "array" 0 (names.map (below element dimensions))

/-- The elements of an array, nested by dimension. -/
def elementsOf (element : String → Tree) : List (List String) → List Tree
  | [] => []
  | names :: dimensions =>
    if [] ∈ names :: dimensions then [] else names.map (below element dimensions)

/-- The number of elements of an array. -/
def elementCount (dimensions : List (List String)) : Nat := (dimensions.map List.length).prod

/-- The range of a vector, which a null one does not have. -/
def vectorRange (bounds : List Range) (scalars : Nat) : Option BitRange :=
  if scalars = 0 then none
  else (bounds.head?.bind Range.integerBounds).map fun ends => ⟨.ofInt ends.1, .ofInt ends.2⟩

/-- The layout of an object of a type, down a chain of at most `depth` nodes. -/
def layout (t : Types) : Nat → String → Nat → Tree
  | 0, name, id => .leaf name id none 1
  | depth + 1, name, id =>
    match t.shape? (t.effective id) with
    | some (.record fields) =>
      .group name "record" 0
        (fields.map fun field => layout t depth (t.strings.getD field.1 "") field.2)
    | some (.array element indices (some bounds)) =>
      let dimensions := List.zipWith t.componentNames indices bounds
      if t.isVector element indices then
        .leaf name id (vectorRange bounds (elementCount dimensions)) (elementCount dimensions)
      else
        .group name "array" (elementCount dimensions)
          (elementsOf (fun name => layout t depth name element) dimensions)
    | _ => .leaf name id none 1

/-- The layout of an object of a type. -/
def tree (t : Types) (name : String) (id : Nat) : Tree := t.layout t.nodes.length name id

end Types

/-! ## Dimensions -/

/-- A range has as many positions as it counts. -/
@[simp] theorem length_positionsFrom (downto : Bool) (n : Nat) (next : Int) :
    (positionsFrom downto n next).length = n := by
  induction n generalizing next with
  | zero => rfl
  | succ n ih => rw [positionsFrom, List.length_cons, ih]

namespace Types

section
variable {t : Types} {index id : Nat} {range : Range} {ends : Int × Int}

theorem extentOf_eq (hends : range.integerBounds = some ends) :
    extentOf range = range.span ends := by
  rw [extentOf, hends]; rfl

theorem dimensionBounds_eq (hends : range.integerBounds = some ends) :
    dimensionBounds range = pure (ends.1, range.span ends) := by
  rw [dimensionBounds, hends]

/-- The ends of a range of an index type. -/
theorem Indexes.integer (h : t.Indexes index range) : ∃ ends, range.integerBounds = some ends := by
  obtain ⟨-, -, hends, -, -, -⟩ := h
  exact ⟨_, hends⟩

/-- A dimension has a name for each position. -/
theorem length_componentNames (t : Types) (index : Nat) (range : Range) :
    (t.componentNames index range).length = extentOf range := by
  rw [componentNames, List.length_map, Range.positions, extentOf]
  cases range.integerBounds with
  | none => rfl
  | some ends => exact length_positionsFrom ..

variable {indices : List Nat} {bounds : List Range}

/-- The extents of an array are those of its ranges. -/
theorem extents_eq (h : List.Forall₂ t.Indexes indices bounds) :
    extents bounds = some (bounds.map extentOf) := by
  induction h with
  | nil => rfl
  | @cons index range indices bounds hrange _ ih =>
    obtain ⟨ends, hends⟩ := hrange.integer
    unfold extents at ih ⊢
    rw [List.mapM_cons, hends, List.map_cons, extentOf_eq hends, ih]
    rfl

/-- The code reads the extents of an array as they are. -/
theorem forEach_dimensionBounds (h : List.Forall₂ t.Indexes indices bounds) :
    (Decoder.forEach (fun range => do
      let (_, extent) ← dimensionBounds range
      pure extent) bounds : Read (List Nat)) = pure (bounds.map extentOf) := by
  induction h with
  | nil => rfl
  | @cons index range indices bounds hrange _ ih =>
    obtain ⟨ends, hends⟩ := hrange.integer
    rw [Decoder.forEach, ih, dimensionBounds_eq hends, List.map_cons, extentOf_eq hends]
    rfl

/-- The dimensions of an array have the lengths of its ranges. -/
theorem map_length_dimensions (h : List.Forall₂ t.Indexes indices bounds) :
    (List.zipWith t.componentNames indices bounds).map List.length = bounds.map extentOf := by
  induction h with
  | nil => rfl
  | cons _ _ ih =>
    rw [List.zipWith_cons_cons, List.map_cons, List.map_cons, ih, length_componentNames]

/-- An array has an empty dimension when one of its extents is zero. -/
theorem nil_mem_iff (dimensions : List (List String)) :
    [] ∈ dimensions ↔ 0 ∈ dimensions.map List.length := by
  rw [List.mem_map]
  constructor
  · exact fun h => ⟨[], h, rfl⟩
  · rintro ⟨names, hnames, hlength⟩
    exact List.length_eq_zero_iff.1 hlength ▸ hnames

end

/-! ## Scalars of the layout -/

section
variable {t : Types} {id : Nat}

/-- An alias has the scalars of its base. -/
theorem Sound.scalars_effective (ht : t.Sound) (id : Nat) :
    t.scalars? (t.effective id) = t.scalars? id := by
  induction id using Nat.strongRecOn with
  | ind id ih =>
    rw [ht.effective_eq id]
    split
    · next base range hshape =>
      rw [ih base (ht.alias_lt hshape), ht.scalars_eq hshape, count]
    · rfl

/-- A scalar type has one scalar. -/
theorem Sound.scalars_of_scalar (ht : t.Sound) {scalar : Storage × List Nat × Nat}
    (h : t.scalar id = some scalar) : t.scalars? id = some 1 := by
  unfold Types.scalar at h
  split at h
  · next storage literals units wkt hshape =>
    rw [← ht.scalars_effective, ht.scalars_eq hshape, count]
  · cases h

/-- The shape of a bounded type. -/
theorem Sound.exists_shape (ht : t.Sound) (hid : t.IsBounded id) :
    ∃ shape, t.shape? (t.effective id) = some shape := by
  obtain ⟨node, hnode⟩ := exists_node ((ht.effective_le id).trans_lt hid.lt)
  exact ⟨node.shape, shape?_eq_some.2 ⟨node, hnode, rfl⟩⟩

/-- The count of a bounded type is that of its shape. -/
theorem Sound.count_effective (ht : t.Sound) {shape : Shape} {n : Nat}
    (hshape : t.shape? (t.effective id) = some shape) (hn : t.scalars? id = some n) :
    t.count shape = some n := by
  rw [← ht.scalars_eq hshape, ht.scalars_effective, hn]

/-- Trees with the same number of scalars have a multiple of it. -/
theorem scalarsAll_map {α : Type} {f : α → Tree} {n : Nat} {xs : List α}
    (h : ∀ x ∈ xs, (f x).scalars = n) : scalarsAll (xs.map f) = xs.length * n := by
  induction xs with
  | nil => rw [List.map_nil, scalarsAll, List.length_nil, Nat.zero_mul]
  | cons x xs ih =>
    have hrest := ih fun x' hx' => h x' (.tail _ hx')
    rw [List.map_cons, scalarsAll, h x (.head _), hrest, List.length_cons,
      Nat.succ_mul, Nat.add_comm]

variable {element : String → Tree} {n : Nat}

/-- The scalars of an array are those of its element, once for each element of its dimensions. -/
theorem below_scalars (helement : ∀ name, (element name).scalars = n)
    (dimensions : List (List String))
    (name : String) : (below element dimensions name).scalars = elementCount dimensions * n := by
  induction dimensions generalizing name with
  | nil => rw [below, helement, elementCount, List.map_nil, List.prod_nil, Nat.one_mul]
  | cons names dimensions ih =>
    rw [below, Tree.scalars, scalarsAll_map fun name _ => ih name, elementCount, elementCount,
      List.map_cons, List.prod_cons, Nat.mul_assoc]

theorem elementCount_null {dimensions : List (List String)} (h : [] ∈ dimensions) :
    elementCount dimensions = 0 :=
  List.prod_eq_zero_iff_exists_zero_nat.2 ⟨0, (nil_mem_iff dimensions).1 h, rfl⟩

/-- Without an empty dimension an array has elements. -/
theorem elementCount_ne {dimensions : List (List String)} (h : [] ∉ dimensions) :
    elementCount dimensions ≠ 0 := fun hzero => by
  obtain ⟨extent, hmem, rfl⟩ := List.prod_eq_zero_iff_exists_zero_nat.1 hzero
  exact h ((nil_mem_iff dimensions).2 hmem)

/-- The elements of an array have their scalars together, none in a null array. -/
theorem elementsOf_scalars {dimensions : List (List String)} (hne : dimensions ≠ [])
    (helement : [] ∉ dimensions → ∀ name, (element name).scalars = n) :
    scalarsAll (elementsOf element dimensions) = elementCount dimensions * n := by
  cases dimensions with
  | nil => exact absurd rfl hne
  | cons names dimensions =>
    rw [elementsOf]
    split
    · next hnull => rw [elementCount_null hnull, Nat.zero_mul, scalarsAll]
    · next hnull =>
      have helement := helement hnull
      rw [scalarsAll_map fun name _ => below_scalars helement dimensions name, elementCount,
        elementCount, List.map_cons, List.prod_cons, Nat.mul_assoc]

/-- What the shape of an array says about its elements and dimensions. -/
structure ArrayOf (t : Types) (id element : Nat) (indices : List Nat) (bounds : List Range) :
    Prop where
  nonempty : indices ≠ []
  ranges : List.Forall₂ t.Indexes indices bounds
  element_lt : element < t.effective id
  element_bounded : [] ∉ List.zipWith t.componentNames indices bounds → t.IsBounded element

/-- A bounded array of a well-formed table has ranges that its index types allow. -/
theorem WellFormed.array (ht : t.WellFormed) {element : Nat} {indices : List Nat}
    {bounds : List Range} (hid : t.IsBounded id)
    (hshape : t.shape? (t.effective id) = some (.array element indices (some bounds))) :
    t.ArrayOf id element indices bounds := by
  obtain ⟨hindices, -, hbounds⟩ := ht.indexed _ _ hshape
  have hall := hbounds bounds rfl
  refine ⟨hindices, hall, ht.sound.element_lt hshape, fun hnull => ?_⟩
  obtain ⟨n, hn⟩ := Option.isSome_iff_exists.1 hid
  have hcount := ht.sound.count_effective hshape hn
  rw [count, extents_eq hall, Option.bind_some, arrayCount, ← map_length_dimensions hall,
    if_neg ((nil_mem_iff _).not.1 hnull)] at hcount
  obtain ⟨m, hm, -⟩ := Option.map_eq_some_iff.1 hcount
  exact Option.isSome_iff_exists.2 ⟨m, hm⟩

/-- An array has at least one dimension. -/
theorem ArrayOf.dimensions_ne {element : Nat} {indices : List Nat} {bounds : List Range}
    (h : t.ArrayOf id element indices bounds) :
    List.zipWith t.componentNames indices bounds ≠ [] := by
  intro hnil
  have hlength := congrArg List.length hnil
  rw [List.length_zipWith, ← h.ranges.length_eq, Nat.min_self] at hlength
  exact h.nonempty (List.length_eq_zero_iff.1 hlength)

/-- The scalars of an array are those of its elements. -/
theorem ArrayOf.scalars {element n : Nat} {indices : List Nat} {bounds : List Range}
    (h : t.ArrayOf id element indices bounds)
    (hcount : t.count (.array element indices (some bounds)) = some n) :
    n = elementCount (List.zipWith t.componentNames indices bounds) *
      (t.scalars? element).getD 0 := by
  rw [count, extents_eq h.ranges, Option.bind_some, arrayCount,
    ← map_length_dimensions h.ranges] at hcount
  split at hcount
  · next hnull =>
    rw [elementCount_null ((nil_mem_iff _).2 hnull), Nat.zero_mul]
    exact (Option.some.inj hcount).symm
  · obtain ⟨m, hm, rfl⟩ := Option.map_eq_some_iff.1 hcount
    rw [hm, Option.getD_some, Nat.mul_comm]
    rfl

/-- The elements of a vector are scalars. -/
theorem isVector_eq {element : Nat} {indices : List Nat} (h : t.isVector element indices = true) :
    ∃ index scalar, indices = [index] ∧ t.scalar element = some scalar := by
  unfold isVector at h
  split at h
  · next index =>
    obtain ⟨scalar, hscalar, -⟩ := (Option.any_eq_true _ _).1 (Bool.and_eq_true_iff.1 h).2
    exact ⟨index, scalar, rfl, hscalar⟩
  · cases h

/-- **The layout has the scalars of the type.** The induction is on how deep the type can be. -/
theorem WellFormed.layout_scalars (ht : t.WellFormed) (depth : Nat) :
    ∀ (id : Nat) (name : String) (n : Nat), id < depth → t.scalars? id = some n →
      (t.layout depth name id).scalars = n := by
  induction depth with
  | zero => exact fun id _ _ hid => absurd hid (Nat.not_lt_zero id)
  | succ depth ih =>
    intro id name n hid hn
    have hle := ht.sound.effective_le id
    have hbounded : t.IsBounded id := Option.isSome_iff_exists.2 ⟨n, hn⟩
    obtain ⟨shape, hshape⟩ := ht.sound.exists_shape hbounded
    have hcount := ht.sound.count_effective hshape hn
    rw [layout, hshape]
    cases shape with
    | scalar => exact Option.some.inj hcount
    | «alias» => exact absurd hshape (ht.sound.effective_not_alias id _ _)
    | record fields =>
      obtain ⟨counts, hcounts, rfl⟩ := Option.map_eq_some_iff.1 hcount
      have hall := mapM_eq_some_iff.1 hcounts
      have hfields : ∀ field ∈ fields, field.2 < depth := fun field hfield => by
        have := ht.sound.field_lt hshape hfield
        omega
      show scalarsAll (fields.map _) = counts.sum
      clear hcounts hcount hshape hn
      induction hall with
      | nil => rfl
      | @cons field count fields counts hfield _ ih' =>
        have hfirst := ih field.2 (t.strings.getD field.1 "") count (hfields field (.head _)) hfield
        rw [List.map_cons, scalarsAll, hfirst, ih' fun field' h => hfields field' (.tail _ h),
          List.sum_cons]
    | array element indices bounds =>
      cases bounds with
      | none => cases hcount
      | some bounds =>
        have harray := ht.array hbounded hshape
        have hlt := harray.element_lt
        have hn := harray.scalars hcount
        dsimp only
        split
        · next hvector =>
          obtain ⟨index, scalar, -, hscalar⟩ := isVector_eq hvector
          rw [ht.sound.scalars_of_scalar hscalar] at hn
          exact (hn.trans (Nat.mul_one _)).symm
        · rw [Tree.scalars, hn, elementsOf_scalars harray.dimensions_ne fun hnull name => ?_]
          obtain ⟨m, hm⟩ := Option.isSome_iff_exists.1 (harray.element_bounded hnull)
          rw [hm]
          exact ih element name m (by omega) hm

end

/-! ## Positions -/

/-- A position of a range, after which there are so many others. -/
def Inside (range : Range) (ends : Int × Int) (position : Int) (later : Nat) : Prop :=
  if range.downto then ends.2 + later ≤ position ∧ position ≤ ends.1
  else ends.1 ≤ position ∧ position + later ≤ ends.2

section
variable {t : Types} {range : Range} {ends : Int × Int} {position : Int} {n : Nat}

/-- The first position of a range. -/
theorem Inside.first (h : range.span ends = n + 1) : Inside range ends ends.1 n := by
  unfold Range.span at h
  unfold Inside
  split
  · next hdownto =>
    rw [if_pos hdownto] at h
    dsimp only at h
    split at h <;> omega
  · next hdownto =>
    rw [if_neg hdownto] at h
    dsimp only at h
    split at h <;> omega

/-- The position after one that is not the last. -/
theorem Inside.next (h : Inside range ends position (n + 1)) :
    Inside range ends (if range.downto then position - 1 else position + 1) n := by
  unfold Inside at h ⊢
  split
  · next hdownto => rw [if_pos hdownto] at h; omega
  · next hdownto => rw [if_neg hdownto] at h; omega

/-- A position lies between the ends. -/
theorem Inside.between (h : Inside range ends position n) :
    min ends.1 ends.2 ≤ position ∧ position ≤ max ends.1 ends.2 := by
  unfold Inside at h
  split at h <;> omega

/-- A position between 64-bit ends fits 64 bits. -/
theorem Inside.isI64 (h : Inside range ends position n) (hleft : IsI64 ends.1)
    (hright : IsI64 ends.2) : IsI64 position := by
  have := h.between
  unfold IsI64 at *
  omega

/-- The code finds the name of a position. -/
theorem component_eq {index : Nat} {storage : Storage} {labels : List Nat} {wkt : Nat}
    (hscalar : t.scalar index = some (storage, labels, wkt))
    (hliterals : storage.isEnum = true →
      isLiteral labels ends.1 = true ∧ isLiteral labels ends.2 = true)
    (h : Inside range ends position n) :
    t.component storage labels position = pure (t.componentName index position) := by
  unfold component componentName
  rw [hscalar]
  dsimp only
  split
  · next henum =>
    obtain ⟨hleft, hright⟩ := hliterals henum
    simp only [isLiteral, Bool.and_eq_true, decide_eq_true_eq] at hleft hright
    have hbetween := h.between
    have hlt : position.toNat < labels.length := by omega
    have hlabel : labels.getD position.toNat 0 = labels[position.toNat] := by
      simp [hlt]
    rw [if_neg (by omega), List.getElem?_eq_getElem hlt, hlabel]
  · rfl

/-- The name of a position is not empty. -/
theorem componentName_ne {index : Nat} (hindex : t.Discrete index) (position : Int) :
    t.componentName index position ≠ "" := by
  obtain ⟨storage, labels, wkt, hscalar, -⟩ := hindex
  unfold componentName
  rw [hscalar]
  dsimp only
  intro h
  have hlength := congrArg String.length h
  split at hlength <;> simp at hlength <;> exact absurd hlength.2 (by decide)

/-- The code finds the position after one that is not the last. -/
theorem following_eq (h : Inside range ends position (n + 1)) (hleft : IsI64 ends.1)
    (hright : IsI64 ends.2) : following range.downto position =
      pure (if range.downto then position - 1 else position + 1) := by
  have hfits := h.next.isI64 hleft hright
  unfold following
  dsimp only
  rw [decide_eq_true (show _ ∧ _ from hfits)]
  rfl

end

end Types

/-! ## The work stack is the recursion -/

open Ondas.Ghw.Types

section
variable {t : Types} {direction : Direction} {element index array d : Nat}
    {indices later : List Nat}
  {bounds more : List Range} {range : Range} {ends : Int × Int}

/-- A group is opened, and its children are recorded. -/
theorem place_group (t : Types) (direction : Direction) {name : String} (hname : name ≠ "")
    (kind : String) (elements : Nat) (children : List Tree) (parent : Option Nat) (m : Mapper) :
    (Tree.group name kind elements children).place t direction parent m =
      m.group name parent kind elements (scalarsAll children == 0) >>= fun b =>
        placeAll t direction children (some b.2) b.1 := by
  rw [Tree.place, bne_iff_ne.2 hname]
  rfl

/-- A group of no elements is opened by its scope. -/
theorem group_zero (m : Mapper) (name : String) (parent : Option Nat) (kind : String)
    (empty : Bool) : m.group name parent kind 0 empty = m.scope name parent kind empty := by
  have hzero : ∀ b : Mapper × Nat, (!empty || decide (0 ≤ emptyScopeLimit - b.1.emptyScopes)) =
      true := fun b => by rw [decide_eq_true (Nat.zero_le _), Bool.or_true]
  unfold Mapper.group
  simp only [hzero]
  exact bind_pure _

/-- The work left for the positions of a dimension after one. -/
def laterPositions (range : Range) (parent array d : Nat) (position : Int) : Nat → List Work
  | 0 => []
  | n + 1 =>
    [.dimension parent array d (if range.downto then position - 1 else position + 1) (n + 1)]

/-- A turn of a dimension that has positions left. -/
theorem turn_dimension (hshape : t.shape? array = some (.array element indices (some bounds)))
    (hindices : indices.drop d = index :: later) (hbounds : bounds.drop d = range :: more)
    (hrange : t.Indexes index range) (hends : range.integerBounds = some ends) {position : Int}
    {n : Nat} (hinside : Inside range ends position n) (parent : Nat) (m : Mapper) :
    Mapper.turn t direction (.dimension parent array d position (n + 1)) m =
      if d + 1 = indices.length then
        pure (.object (t.componentName index position) (some parent) element ::
          laterPositions range parent array d position n, m)
      else (do
        let (m, scope) ← m.scope (t.componentName index position) (some parent) "array"
          (t.scalars? array == some 0)
        let (next, remaining) ← dimensionBoundsAt bounds (d + 1)
        pure (.dimension scope array (d + 1) next remaining ::
          laterPositions range parent array d position n, m)) := by
  obtain ⟨hscalar, -, hends', hleft, hright, hliterals⟩ := hrange
  rw [hends] at hends'
  cases hends'
  have hindex : indices[d]? = some index := by
    rw [← Nat.add_zero d, ← List.getElem?_drop, hindices]; rfl
  have hbound : bounds[d]? = some range := by
    rw [← Nat.add_zero d, ← List.getElem?_drop, hbounds]; rfl
  rw [Mapper.turn, if_neg (Nat.succ_ne_zero n), hshape]
  dsimp only
  rw [hindex, Option.bind_some, hscalar]
  dsimp only
  rw [component_eq hscalar hliterals hinside, hbound, pure_bind]
  cases n with
  | zero => rw [if_neg (by omega), pure_bind]; rfl
  | succ n =>
    have hnext : following ((some range).any Range.downto) position = _ :=
      following_eq hinside hleft hright
    rw [if_pos (by omega), hnext]
    rfl

/-- The positions of a dimension are worked off one after the other. The induction is on the number
of those that are left. -/
theorem positions_works {tree : String → Tree} {k parent : Nat}
    (hone : ∀ (n l : Nat) (position : Int) (rest : Mapper → Read Mapper) (m : Mapper) (w : Wire),
      Inside range ends position n →
      (∀ m w, Works (Mapper.turn t direction) l
        (laterPositions range parent array d position n) m (rest m) w) →
      Works (Mapper.turn t direction) (k + l + 1) [.dimension parent array d position (n + 1)] m
        ((tree (t.componentName index position)).place t direction (some parent) m >>= rest) w)
    (n : Nat) : ∀ (position : Int) (m : Mapper) (w : Wire), Inside range ends position n →
      Works (Mapper.turn t direction) ((n + 1) * (k + 1))
        [.dimension parent array d position (n + 1)] m
        (placeAll t direction (((positionsFrom range.downto (n + 1) position).map
          (t.componentName index)).map tree) (some parent) m) w := by
  induction n with
  | zero =>
    intro position m w hinside
    refine (hone 0 0 position (fun m => pure m) m w hinside fun m w => .nil _ 0 m w).mono ?_
    omega
  | succ n ih =>
    intro position m w hinside
    refine (hone (n + 1) ((n + 1) * (k + 1)) position _ m w hinside fun m w =>
      ih _ m w hinside.next).mono ?_
    rw [Nat.succ_mul (n + 1)]
    omega

/-- The positions of the last dimension are worked off when the elements are. -/
theorem lastDimension_works {tree : String → Tree} {k : Nat}
    (hshape : t.shape? array = some (.array element indices (some bounds)))
    (helement : ∀ (name : String) (parent : Nat) (m : Mapper) (w : Wire),
      Works (Mapper.turn t direction) k [.object name (some parent) element] m
        ((tree name).place t direction (some parent) m) w)
    (hindices : indices.drop d = [index]) (hbounds : bounds.drop d = range :: more)
    (hrange : t.Indexes index range) (hends : range.integerBounds = some ends) (n l parent : Nat)
    (position : Int) (rest : Mapper → Read Mapper) (m : Mapper) (w : Wire)
    (hinside : Inside range ends position n)
    (hrest : ∀ m w, Works (Mapper.turn t direction) l
      (laterPositions range parent array d position n) m (rest m) w) :
    Works (Mapper.turn t direction) (k + l + 1) [.dimension parent array d position (n + 1)] m
      ((tree (t.componentName index position)).place t direction (some parent) m >>= rest) w := by
  have hturn : Mapper.turn t direction (.dimension parent array d position (n + 1)) m = _ :=
    turn_dimension hshape hindices hbounds hrange hends hinside parent m
  have hlength := congrArg List.length hindices
  rw [List.length_drop, List.length_singleton] at hlength
  rw [if_pos (by omega)] at hturn
  refine Works.first (congrFun hturn w) ?_ rfl
  exact (helement _ parent m w).append fun m w _ => hrest m w

/-- The positions of another dimension are worked off when those of the dimension below it are. -/
theorem innerDimension_works {tree : String → Tree} {k index' : Nat} {range' : Range}
    (hshape : t.shape? array = some (.array element indices (some bounds)))
    (hindices : indices.drop d = index :: index' :: later)
    (hbounds : bounds.drop d = range :: range' :: more)
    (hrange : t.Indexes index range) (hends : range.integerBounds = some ends)
    (hrange' : t.Indexes index' range') (hpositions : extentOf range' ≠ 0)
    (hbelow : ∀ ends' n', range'.integerBounds = some ends' → range'.span ends' = n' + 1 →
      ∀ (parent : Nat) (m : Mapper) (w : Wire),
        Works (Mapper.turn t direction) k [.dimension parent array (d + 1) ends'.1 (n' + 1)] m
          (placeAll t direction ((t.componentNames index' range').map tree) (some parent) m) w)
    (hempty : (t.scalars? array == some 0) =
      (scalarsAll ((t.componentNames index' range').map tree) == 0))
    (n l parent : Nat) (position : Int) (rest : Mapper → Read Mapper) (m : Mapper) (w : Wire)
    (hinside : Inside range ends position n)
    (hrest : ∀ m w, Works (Mapper.turn t direction) l
      (laterPositions range parent array d position n) m (rest m) w) :
    Works (Mapper.turn t direction) (k + l + 1) [.dimension parent array d position (n + 1)] m
      ((Tree.group (t.componentName index position) "array" 0
        ((t.componentNames index' range').map tree)).place t direction (some parent) m >>=
          rest) w := by
  have hturn : Mapper.turn t direction (.dimension parent array d position (n + 1)) m = _ :=
    turn_dimension hshape hindices hbounds hrange hends hinside parent m
  have hlength := congrArg List.length hindices
  rw [List.length_drop, List.length_cons, List.length_cons] at hlength
  obtain ⟨ends', hends'⟩ := hrange'.integer
  obtain ⟨n', hn'⟩ : ∃ n', range'.span ends' = n' + 1 := by
    rw [extentOf_eq hends'] at hpositions
    exact Nat.exists_eq_succ_of_ne_zero hpositions
  have hbound : bounds[d + 1]? = some range' := by
    rw [← List.getElem?_drop, hbounds]; rfl
  rw [if_neg (by omega), dimensionBoundsAt, hbound] at hturn
  dsimp only at hturn
  rw [dimensionBounds_eq hends', hn'] at hturn
  have hname : t.componentName index position ≠ "" := by
    obtain ⟨hscalar, hdiscrete, -⟩ := hrange
    exact componentName_ne ⟨_, _, _, hscalar, hdiscrete⟩ position
  rw [place_group t direction hname, group_zero, ← hempty, bind_assoc]
  refine Works.bind hturn rfl fun b w _ => ?_
  exact (hbelow ends' n' hends' hn' b.2 b.1 w).append fun m w _ => hrest m w

/-- The positions of a dimension are worked off when the elements of the array are. The induction is
on the dimensions below it. -/
theorem dimensions_works {tree : String → Tree} {k scalars : Nat}
    (hshape : t.shape? array = some (.array element indices (some bounds)))
    (helement : ∀ (name : String) (parent : Nat) (m : Mapper) (w : Wire),
      Works (Mapper.turn t direction) k [.object name (some parent) element] m
        ((tree name).place t direction (some parent) m) w)
    (hscalars : ∀ name, (tree name).scalars = scalars)
    (hempty : (t.scalars? array == some 0) = (scalars == 0))
    (hall : List.Forall₂ t.Indexes later more) :
    ∀ (d index : Nat) (range : Range) (ends : Int × Int), indices.drop d = index :: later →
      bounds.drop d = range :: more → t.Indexes index range → range.integerBounds = some ends →
      [] ∉ List.zipWith t.componentNames later more →
      ∀ (n parent : Nat) (position : Int) (m : Mapper) (w : Wire), Inside range ends position n →
        Works (Mapper.turn t direction) ((n + 1) * (dimensionTurns k (more.map extentOf) + 1))
          [.dimension parent array d position (n + 1)] m
          (placeAll t direction (((positionsFrom range.downto (n + 1) position).map
            (t.componentName index)).map (below tree (List.zipWith t.componentNames later more)))
            (some parent) m) w := by
  induction hall with
  | nil =>
    intro d index range ends hindices hbounds hrange hends _ n parent
    exact positions_works (fun n l position rest m w hinside hrest => lastDimension_works hshape
      helement hindices hbounds hrange hends n l parent position rest m w hinside hrest) n
  | @cons index' range' later more hrange' _ ih =>
    intro d index range ends hindices hbounds hrange hends hnull n parent
    rw [List.zipWith_cons_cons, List.mem_cons, not_or] at hnull
    have hpositions : extentOf range' ≠ 0 := by
      rw [← length_componentNames t index' range']
      exact fun h => hnull.1 (List.length_eq_zero_iff.1 h).symm
    have hcount := elementCount_ne hnull.2
    have hall := scalarsAll_map fun name (_ : name ∈ t.componentNames index' range') =>
      below_scalars hscalars (List.zipWith t.componentNames later more) name
    rw [length_componentNames] at hall
    refine positions_works (fun n l position rest m w hinside hrest => innerDimension_works hshape
      hindices hbounds hrange hends hrange' hpositions ?_ ?_ n l parent position rest m w hinside
      hrest) n
    · intro ends' n' hends' hn' parent m w
      have hindices' : indices.drop (d + 1) = index' :: later := by
        rw [← List.drop_drop, hindices]; rfl
      have hbounds' : bounds.drop (d + 1) = range' :: more := by
        rw [← List.drop_drop, hbounds]; rfl
      have hpos : range'.positions = positionsFrom range'.downto (n' + 1) ends'.1 := by
        rw [Range.positions, hends']
        dsimp only
        rw [hn']
      have hworks := ih (d + 1) index' range' ends' hindices' hbounds' hrange' hends' hnull.2 n'
        parent ends'.1 m w (.first hn')
      rw [← hpos] at hworks
      rw [List.map_cons, dimensionTurns, extentOf_eq hends', hn']
      exact hworks
    · rw [hall, hempty, Bool.eq_iff_iff, beq_iff_eq, beq_iff_eq, Nat.mul_eq_zero, Nat.mul_eq_zero]
      constructor
      · exact fun h => .inr (.inr h)
      · rintro (h | h | h)
        · exact absurd h hpositions
        · exact absurd h hcount
        · exact h

end

/-- The code compares the product of positive extents with a limit. -/
theorem any_elements {extents : List Nat} (hpos : 0 ∉ extents) {limit : Nat}
    (hlimit : limit ≤ usizeMax) :
    ((elements extents).any fun count => decide (count ≤ limit)) =
      decide (extents.prod ≤ limit) := by
  have hproduct := foldlM_product hpos 1
  rw [Nat.one_mul] at hproduct
  unfold elements
  rw [Bool.eq_iff_iff, Option.any_eq_true, decide_eq_true_iff]
  constructor
  · rintro ⟨count, hcount, hle⟩
    have hle := of_decide_eq_true hle
    rw [hcount, Option.filter_some, if_pos (decide_eq_true (hle.trans hlimit))] at hproduct
    split at hproduct
    · cases hproduct
      exact hle
    · cases hproduct
  · intro hle
    rw [if_pos (hle.trans hlimit)] at hproduct
    obtain ⟨hcount, -⟩ := Option.filter_eq_some_iff.1 hproduct
    exact ⟨_, hcount, decide_eq_true hle⟩

section
variable {t : Types} {direction : Direction} {id : Nat} {name : String} {parent : Option Nat}
  {m : Mapper} {w : Wire}

/-- Nothing is laid out without a name. -/
theorem layout_unnamed (t : Types) (direction : Direction) (depth id : Nat) (parent : Option Nat)
    (m : Mapper) (w : Wire) : (t.layout depth "" id).place t direction parent m w =
      (.error (malformed "empty object or field name" w), w) := by
  cases depth with
  | zero => rfl
  | succ depth =>
    rw [layout]
    split
    · rfl
    · dsimp only
      split <;> rfl
    · rfl

/-- A scalar is read with one source ID. -/
theorem place_scalar (hname : name ≠ "") {scalar : Storage × List Nat × Nat}
    (hscalar : t.scalar id = some scalar) :
    (Tree.leaf name id none 1).place t direction parent m =
      uleb >>= fun sourceId => m.leaf t name parent id [sourceId] direction none := by
  rw [Tree.place, bne_iff_ne.2 hname, hscalar]
  show Decoder.times uleb 1 >>= _ = _
  exact bind_assoc _ _ _

/-- A vector is read with the source IDs of its positions. -/
theorem place_vector (ht : t.WellFormed) (hid : t.IsBounded id) {element : Nat} {indices : List Nat}
    {bounds : List Range}
    (hshape : t.shape? (t.effective id) = some (.array element indices (some bounds)))
    (hvector : t.isVector element indices = true) (hname : name ≠ "") :
    (Tree.leaf name id (vectorRange bounds
        (elementCount (List.zipWith t.componentNames indices bounds)))
      (elementCount (List.zipWith t.componentNames indices bounds))).place t direction parent m =
      m.vector t direction name parent id bounds := by
  have harray := ht.array hid hshape
  obtain ⟨n, hn⟩ := Option.isSome_iff_exists.1 hid
  have hcount := harray.scalars (ht.sound.count_effective hshape hn)
  obtain ⟨index, scalar, rfl, hscalar⟩ := isVector_eq hvector
  rw [ht.sound.scalars_of_scalar hscalar, Option.getD_some, Nat.mul_one] at hcount
  rw [← hcount]
  have hnone : t.scalar id = none := by
    rw [Types.scalar, hshape]
  obtain ⟨range, rfl, ends, hends⟩ : ∃ range, bounds = [range] ∧
      ∃ ends, range.integerBounds = some ends := by
    rcases harray.ranges with _ | ⟨hrange, _ | _⟩
    exact ⟨_, rfl, hrange.integer⟩
  rw [Tree.place, bne_iff_ne.2 hname, hnone, Mapper.vector, ht.sound.scalars_effective, hn]
  by_cases hzero : n = 0
  · simp only [vectorRange, if_pos hzero]
    rfl
  · simp only [vectorRange, if_neg hzero, List.getElem?_cons_zero, List.head?_cons,
      Option.bind_some,
      Option.map_some, hends]
    rfl

/-- The fields of a bounded record are bounded. -/
theorem fieldCounts_bounded {fields : List (Nat × Nat)} {counts : List Nat}
    (h : t.fieldCounts fields = some counts) : ∀ field ∈ fields, t.IsBounded field.2 := by
  have hall := mapM_eq_some_iff.1 h
  clear h
  induction hall with
  | nil => exact nofun
  | cons hfield _ ih =>
    intro field hmem
    rcases List.mem_cons.1 hmem with rfl | hmem
    · exact Option.isSome_iff_exists.2 ⟨_, hfield⟩
    · exact ih field hmem

/-- The fields of a record are worked off one after the other. -/
theorem fields_works {turns : Nat → Nat} {tree : Nat × Nat → Tree} (fields : List (Nat × Nat))
    (hfields : ∀ field ∈ fields, ∀ (scope : Nat) (m : Mapper) (w : Wire),
      Works (Mapper.turn t direction) (turns field.2)
        [.object (t.strings.getD field.1 "") (some scope) field.2] m
        ((tree field).place t direction (some scope) m) w) (scope : Nat) :
    ∀ (m : Mapper) (w : Wire),
      Works (Mapper.turn t direction) (fields.map fun field => turns field.2).sum
        (fields.map fun field => .object (t.strings.getD field.1 "") (some scope) field.2) m
        (placeAll t direction (fields.map tree) (some scope) m) w := by
  induction fields with
  | nil => exact fun m w => .nil _ _ m w
  | cons field fields ih =>
    intro m w
    have hrest := ih fun field' h => hfields field' (.tail _ h)
    rw [List.map_cons, List.sum_cons]
    exact (hfields field (.head _) scope m w).append fun m w _ => hrest m w

/-- An array that is no vector is worked off when its elements are. -/
theorem array_works (ht : t.WellFormed) (hid : t.IsBounded id) {element : Nat} {indices : List Nat}
    {bounds : List Range} {tree : String → Tree} {k n : Nat} (hn : t.scalars? id = some n)
    (hshape : t.shape? (t.effective id) = some (.array element indices (some bounds)))
    (hvector : t.isVector element indices ≠ true) (hname : name ≠ "")
    (helement : t.IsBounded element → ∀ (name : String) (parent : Nat) (m : Mapper) (w : Wire),
      Works (Mapper.turn t direction) k [.object name (some parent) element] m
        ((tree name).place t direction (some parent) m) w)
    (hscalars : ∀ n name, t.scalars? element = some n → (tree name).scalars = n)
    (hall : scalarsAll (elementsOf tree (List.zipWith t.componentNames indices bounds)) = n) :
    Works (Mapper.turn t direction) (dimensionTurns k (bounds.map extentOf) + 1)
      [.object name parent id] m
      ((Tree.group name "array" (elementCount (List.zipWith t.componentNames indices bounds))
        (elementsOf tree (List.zipWith t.componentNames indices bounds))).place t
          direction parent m)
      w := by
  have harray := ht.array hid hshape
  have hranges := harray.ranges
  have hextents := map_length_dimensions hranges
  have hempty : (t.scalars? (t.effective id) == some 0) = (scalarsAll (elementsOf tree
      (List.zipWith t.componentNames indices bounds)) == 0) := by
    rw [ht.sound.scalars_effective, hn, hall, Bool.eq_iff_iff, beq_iff_eq, beq_iff_eq,
      Option.some_inj]
  have hturn : Mapper.turn t direction (.object name parent id) m =
      m.array t name parent id bounds := by
    rw [Mapper.turn, bne_iff_ne.2 hname, hshape]
    dsimp only
    rw [if_neg hvector]
    rfl
  rw [Mapper.array, hempty, forEach_dimensionBounds hranges, ← hextents] at hturn
  by_cases hnull : [] ∈ List.zipWith t.componentNames indices bounds
  · have hnone : elementsOf tree (List.zipWith t.componentNames indices bounds) = [] := by
      cases hd : List.zipWith t.componentNames indices bounds with
      | nil => rfl
      | cons names dimensions => rw [elementsOf, if_pos (hd ▸ hnull)]
    rw [hnone] at hturn ⊢
    rw [elementCount_null hnull, place_group t direction hname, group_zero]
    simp only [pure_bind, if_pos ((nil_mem_iff _).1 hnull)] at hturn
    exact Works.bind hturn rfl fun b w _ => .nil _ _ b.1 w
  · obtain ⟨e, he⟩ := Option.isSome_iff_exists.1 (harray.element_bounded hnull)
    have hcount := harray.scalars (ht.sound.count_effective hshape hn)
    have hpositive := elementCount_ne hnull
    have hzero : (t.scalars? (t.effective id) == some 0) = (e == 0) := by
      rw [ht.sound.scalars_effective, hn, hcount, he, Option.getD_some, Bool.eq_iff_iff, beq_iff_eq,
        beq_iff_eq, Option.some_inj, Nat.mul_eq_zero]
      exact ⟨fun h => h.resolve_left hpositive, .inr⟩
    have helement := helement (harray.element_bounded hnull)
    simp only [pure_bind, if_neg ((nil_mem_iff _).not.1 hnull), any_elements
      ((nil_mem_iff _).not.1 hnull)
      ((Nat.sub_le _ _).trans (show emptyScopeLimit ≤ usizeMax by decide))]
      at hturn
    cases hranges with
    | nil => exact absurd rfl harray.nonempty
    | @cons index range later more hrange hmore =>
      obtain ⟨ends, hends⟩ := hrange.integer
      rw [List.zipWith_cons_cons] at hnull hturn ⊢
      obtain ⟨n', hn'⟩ : ∃ n', range.span ends = n' + 1 := by
        refine Nat.exists_eq_succ_of_ne_zero fun hspan => hnull ?_
        rw [← extentOf_eq hends, ← length_componentNames t index range] at hspan
        exact List.length_eq_zero_iff.1 hspan ▸ .head _
      have hpos : range.positions = positionsFrom range.downto (n' + 1) ends.1 := by
        rw [Range.positions, hends]
        dsimp only
        rw [hn']
      have hfirst : dimensionBoundsAt (range :: more) 0 = pure (ends.1, n' + 1) := by
        rw [← hn', ← dimensionBounds_eq hends]
        rfl
      rw [hfirst] at hturn
      rw [place_group t direction hname]
      have hx : Mapper.turn t direction (.object name parent id) m =
          m.group name parent "array" (elementCount (t.componentNames index range ::
            List.zipWith t.componentNames later more)) (scalarsAll (elementsOf tree
              (t.componentNames index range :: List.zipWith t.componentNames later more)) == 0) >>=
            fun b => pure ([.dimension b.2 (t.effective id) 0 ends.1 (n' + 1)], b.1) := by
        rw [hturn]
        simp only [Mapper.group, bind_assoc, pure_bind]
        rfl
      rw [elementsOf, if_neg hnull] at hx ⊢
      have hinner := dimensions_works hshape helement (fun name => hscalars e name he) hzero hmore 0
        index range ends rfl rfl hrange hends (fun h => hnull (.tail _ h)) n'
      rw [List.map_cons, dimensionTurns, extentOf_eq hends, hn']
      refine Works.bind hx rfl fun b w _ => ?_
      rw [componentNames, hpos]
      exact hinner b.2 ends.1 b.1 w (.first hn')

/-- **The work stack is the recursion.** The induction is on how deep the type can be. -/
theorem object_works (ht : t.WellFormed) (depth : Nat) :
    ∀ (id : Nat) (name : String) (parent : Option Nat) (m : Mapper) (w : Wire), id < depth →
      t.IsBounded id → Works (Mapper.turn t direction) (t.objectTurns depth id)
        [.object name parent id] m ((t.layout depth name id).place t direction parent m) w := by
  induction depth with
  | zero => exact fun id _ _ _ _ hid => absurd hid (Nat.not_lt_zero id)
  | succ depth ih =>
    intro id name parent m w hdepth hid
    have hle := ht.sound.effective_le id
    obtain ⟨n, hn⟩ := Option.isSome_iff_exists.1 hid
    obtain ⟨shape, hshape⟩ := ht.sound.exists_shape hid
    have hcount := ht.sound.count_effective hshape hn
    have hscalars := ht.layout_scalars (depth + 1) id name n hdepth hn
    by_cases hname : name = ""
    · subst hname
      obtain ⟨k, hk⟩ : ∃ k, t.objectTurns (depth + 1) id = k + 1 := by
        rw [objectTurns]
        split <;> exact ⟨_, rfl⟩
      rw [hk]
      exact Works.error rfl (layout_unnamed t direction (depth + 1) id parent m w)
    rw [layout, hshape] at hscalars ⊢
    rw [objectTurns, hshape]
    cases shape with
    | scalar storage literals units wkt =>
      have hscalar : t.scalar id = some (storage, literals, wkt) := by rw [Types.scalar, hshape]
      dsimp only
      rw [place_scalar hname hscalar]
      refine Works.last (k := 0) ?_
      rw [Mapper.turn, bne_iff_ne.2 hname, hshape]
      exact (bind_assoc uleb _ _).symm
    | «alias» => exact absurd hshape (ht.sound.effective_not_alias id _ _)
    | record fields =>
      obtain ⟨counts, hcounts, -⟩ := Option.map_eq_some_iff.1 hcount
      have hfields : ∀ field ∈ fields, ∀ (scope : Nat) (m : Mapper) (w : Wire),
          Works (Mapper.turn t direction) (t.objectTurns depth field.2)
            [.object (t.strings.getD field.1 "") (some scope) field.2] m
            ((t.layout depth (t.strings.getD field.1 "") field.2).place t direction
              (some scope) m) w := by
        intro field hfield scope m w
        have hlt := ht.sound.field_lt hshape hfield
        exact ih field.2 _ (some scope) m w (by omega) (fieldCounts_bounded hcounts field hfield)
      have hempty : (t.scalars? (t.effective id) == some 0) = (scalarsAll (fields.map fun field =>
          t.layout depth (t.strings.getD field.1 "") field.2) == 0) := by
        rw [ht.sound.scalars_effective, hn, Bool.eq_iff_iff, beq_iff_eq, beq_iff_eq,
          Option.some_inj]
        rw [← hscalars]
        rfl
      dsimp only
      rw [place_group t direction hname, group_zero, ← hempty]
      refine Works.bind ?_ rfl fun b w _ => fields_works fields hfields b.2 b.1 w
      rw [Mapper.turn, bne_iff_ne.2 hname, hshape]
      rfl
    | array element indices bounds =>
      cases bounds with
      | none => cases hcount
      | some bounds =>
        dsimp only at hscalars ⊢
        by_cases hvector : t.isVector element indices = true
        · rw [if_pos hvector, place_vector ht hid hshape hvector hname]
          refine Works.last ?_
          rw [Mapper.turn, bne_iff_ne.2 hname, hshape]
          dsimp only
          rw [if_pos hvector]
          rfl
        · rw [if_neg hvector] at hscalars ⊢
          have hlt := (ht.array hid hshape).element_lt
          exact array_works ht hid hn hshape hvector hname
            (fun helement name parent m w => ih element name (some parent) m w (by omega) helement)
            (fun n name hn => ht.layout_scalars depth element name n (by omega) hn) hscalars

/-- The loop of `Mapper::object` ends, and has placed the layout of the type. -/
theorem objectLoop_eq (ht : t.WellFormed) (hid : t.IsBounded id) {fuel : Nat}
    (hfuel : t.objectTurns t.nodes.length id ≤ fuel) :
    workLoop (Mapper.turn t direction) fuel [.object name parent id] m w =
      ((t.tree name id).place t direction parent m >>= fun m => pure ([], m)) w :=
  (object_works ht t.nodes.length id name parent m w hid.lt hid).enough hfuel

/-- **`Mapper::object` places the layout of the type.** -/
theorem object_eq (ht : t.WellFormed) (hid : t.IsBounded id) :
    m.object t name parent id direction w = (t.tree name id).place t direction parent m w := by
  have hloop : workLoop (Mapper.turn t direction) (t.objectTurns t.nodes.length id)
      [.object name parent id] m w = _ := objectLoop_eq ht hid (Nat.le_refl _)
  unfold Mapper.object
  rcases hrun : (t.tree name id).place t direction parent m w with ⟨e | m', w'⟩
  · rw [Decoder.bind_of_error hrun] at hloop
    rw [Decoder.bind_of_error hloop]
  · rw [Decoder.bind_of_ok hrun] at hloop
    rw [Decoder.bind_of_ok hloop]
    rfl

end

end Ondas.Ghw
