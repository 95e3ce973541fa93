import Ondas.Ghw.Bounds
import Ondas.Library.WorkStack
import Ondas.Query.Slices

/-!
# The GHW hierarchy section

The section declares scopes and objects, and an object of a composite type stands for the scopes and
variables of its parts. `Mapper.object` expands one with a stack of work items (`Mapper.turn`): a
part to be expanded, or the positions of an array dimension that are left. A scalar or a vector of
logic becomes a variable (`Mapper.leaf`), which reads its scalar IDs from the wire and shares a
recipe with the variables of the same IDs and encoding. `Declarations.read` reads the whole section.

The type table is a parameter, and a hash map is a list of its entries here. A vacant slot of a
block, `usize::MAX` in the source, is none. An index outside a list, where the source panics, is an
error.
-/

namespace Ondas.Ghw

open Library Wire

/-! ## Declarations -/

/-- The direction of a variable. -/
inductive Direction where
  | unknown | implicit | input | output | inOut | buffer | linkage
  deriving DecidableEq, Repr

/-- The packing of a scope. -/
inductive Packing where
  | packed | unpacked | sparse | taggedPacked
  deriving DecidableEq, Repr

/-- The interpretation of a number. -/
inductive Signedness where
  | signed | unsigned
  deriving DecidableEq, Repr

/-- The logic states of a variable. -/
inductive LogicDomain where
  | twoState | fourState | nineState
  deriving DecidableEq, Repr

/-- A scope declaration. -/
structure ScopeData where
  name : String
  nameWasEscaped : Bool
  parent : Option Nat
  kind : String
  definitionName : Option String
  packing : Option Packing
  isHidden : Bool
  deriving DecidableEq, Repr

/-- The labels of stored bit values. -/
structure EnumerationData where
  name : Option String
  variants : List (String × String)
  deriving DecidableEq, Repr

/-- `EnumerationData::for_encoding`: every key is a bit value of the encoding. -/
def EnumerationData.forEncoding (name : Option String) (variants : List (String × String)) :
    Encoding → Option EnumerationData
  | .bits width =>
    if variants.isEmpty || !variants.all fun variant =>
        fromAscii (ascii variant.1) && (ascii variant.1).length == width then none
    else some ⟨name, variants.map fun variant => (variant.1.map Char.toLower, variant.2)⟩
  | _ => none

/-- A variable declaration. -/
structure VariableData where
  name : String
  readerName : Option String
  nameWasEscaped : Bool
  parent : Option Nat
  kind : String
  direction : Direction
  range : Option BitRange
  isConstant : Bool
  typeName : Option String
  signedness : Option Signedness
  logicDomain : Option LogicDomain
  enumeration : Option EnumerationData
  signal : Option Nat
  deriving DecidableEq, Repr

/-! ## Scalar types of source IDs -/

/-- The types of the source IDs: blocks of slots that are allocated on first use, or a map. -/
inductive ScalarTable where
  | blocks (blocks : List (Option (List (Option Nat)))) (used allocated : Nat)
  | sparse (table : List (Nat × Nat))
  deriving DecidableEq, Repr

/-- `SCALAR_BLOCK_BITS`. -/
def scalarBlockBits : Nat := 10

/-- `SCALAR_BLOCK_LEN`. -/
def scalarBlockLen : Nat := 2 ^ scalarBlockBits

/-- `SCALAR_BLOCK_INDEX_BYTES`. -/
def scalarBlockIndexBytes : Nat := 2 ^ 20

/-- `SCALAR_BLOCK_SAMPLE`. -/
def scalarBlockSample : Nat := 4

/-- `SCALAR_BLOCK_DENSITY`. -/
def scalarBlockDensity : Nat := 8

namespace ScalarTable

/-- `ScalarTable::new`. An optional vector takes 24 bytes. -/
def new (limit : Nat) (wire : Wire) : ScalarTable :=
  let blocks := (limit + scalarBlockLen) / scalarBlockLen
  if blocks * 24 ≤ scalarBlockIndexBytes ∧ blocks ≤ wire.left then
    .blocks (List.replicate blocks none) 0 0
  else .sparse []

/-- `ScalarTable::get`. -/
def get (id : Nat) : ScalarTable → Option Nat
  | .blocks blockIndex _ _ =>
    (blockIndex[id >>> scalarBlockBits]?).join.bind fun block =>
      (block[id &&& (scalarBlockLen - 1)]?).join
  | .sparse table => table.lookup id

/-- The slots of the blocks that are taken, in the order of their IDs. -/
def taken (blockIndex : List (Option (List (Option Nat)))) : List (Nat × Nat) :=
  blockIndex.zipIdx.flatMap fun (block, index) =>
    (block.getD []).zipIdx.filterMap fun (type, offset) =>
      type.map fun type => ((index <<< scalarBlockBits) ||| offset, type)

/-- `ScalarTable::switch_to_sparse`. -/
def switchToSparse : ScalarTable → ScalarTable
  | .blocks blockIndex _ _ => .sparse (taken blockIndex)
  | .sparse table => .sparse table

/-- `ScalarTable::insert`. -/
def insert (id type : Nat) : ScalarTable → ScalarTable
  | .sparse table => .sparse ((id, type) :: table.filter fun entry => entry.1 != id)
  | .blocks blockIndex used allocated =>
    match blockIndex[id >>> scalarBlockBits]? with
    | none => .blocks blockIndex used allocated
    | some block =>
      let allocated := if block.isNone then allocated + 1 else allocated
      let slots := block.getD (List.replicate scalarBlockLen none)
      let offset := id &&& (scalarBlockLen - 1)
      let used := if (slots[offset]?).join.isNone then used + 1 else used
      let blockIndex := blockIndex.set (id >>> scalarBlockBits)
        (some (slots.set offset (some type)))
      if scalarBlockSample ≤ allocated ∧ used * scalarBlockDensity < allocated * scalarBlockLen then
        switchToSparse (.blocks blockIndex used allocated)
      else .blocks blockIndex used allocated

/-- `ScalarTable::into_active`. -/
def intoActive (t : Types) : ScalarTable → List (Nat × Nat)
  | .blocks blockIndex _ _ => (taken blockIndex).map fun entry => (entry.1, t.effective entry.2)
  | .sparse table =>
    (table.map fun entry => (entry.1, t.effective entry.2)).mergeSort fun a b => a.1 ≤ b.1

end ScalarTable

/-! ## Recipes -/

/-- The scalar IDs whose values make up a signal. -/
structure Recipe where
  ids : List Nat
  encoding : Encoding
  scalarType : Nat
  vector : Bool
  deriving DecidableEq, Repr

/-- The recipes with the index of their IDs and encodings: the fields `recipes` and `keys` of the
mapper. A key leads to a recipe that has it. -/
structure Recipes where
  list : List Recipe
  keys : List ((List Nat × Encoding) × Nat)
  keyed : ∀ entry ∈ keys, ∃ recipe, list[entry.2]? = some recipe ∧
    (recipe.ids, recipe.encoding) = entry.1

namespace Recipes

/-- No recipes. -/
def empty : Recipes := ⟨[], [], nofun⟩

/-- The recipes with a new one. -/
def add (r : Recipes) (recipe : Recipe) : Recipes where
  list := r.list ++ [recipe]
  keys := ((recipe.ids, recipe.encoding), r.list.length) :: r.keys
  keyed entry h := by
    rcases List.mem_cons.1 h with rfl | h
    · exact ⟨recipe, List.getElem?_concat_length, rfl⟩
    · obtain ⟨old, hold, hkey⟩ := r.keyed entry h
      exact ⟨old, (List.getElem?_append_left (List.getElem?_eq_some_iff.1 hold).1).trans hold, hkey⟩

/-- The recipe of some IDs and an encoding, which is a new one when there is none yet. -/
def signal (r : Recipes) (recipe : Recipe) : Recipes × Nat :=
  match r.keys.find? fun entry => entry.1 == (recipe.ids, recipe.encoding) with
  | some entry => (r, entry.2)
  | none => (r.add recipe, r.list.length)

/-- The signal of a leaf, which has none without IDs. -/
def leafSignal (r : Recipes) (recipe : Recipe) : Recipes × Option Nat :=
  if recipe.ids = [] then (r, none) else ((r.signal recipe).1, some (r.signal recipe).2)

end Recipes

/-! ## The mapper -/

/-- `EMPTY_SCOPE_LIMIT`. -/
def emptyScopeLimit : Nat := 1000000

/-- The mapper without its type table. -/
structure Mapper where
  scopes : List ScopeData
  vars : List VariableData
  recipes : Recipes
  scalarTypes : ScalarTable
  maxId : Nat
  emptyScopes : Nat

namespace Mapper

/-- `Mapper::scope`, with the index of the new scope. -/
def scope (m : Mapper) (name : String) (parent : Option Nat) (kind : String) (empty : Bool) :
    Read (Mapper × Nat) := do
  ensure (!(empty && m.emptyScopes == emptyScopeLimit))
    (unsupported "empty hierarchy expansion above 1000000 scopes")
  let data : ScopeData :=
    ⟨name, false, parent, kind, none,
    if kind ∈ ["array", "record"] then some .unpacked else none, false⟩
  let emptyScopes := if empty then m.emptyScopes + 1 else m.emptyScopes
  pure ({ m with scopes := m.scopes ++ [data], emptyScopes := emptyScopes }, m.scopes.length)

/-- The number of bits of a number, `usize::BITS` less its leading zeros. -/
def bitLength (n : Nat) : Nat := if n = 0 then 0 else n.log2 + 1

/-- `Mapper::width`, by the storage, the literals and the well-known marker of the leaf. -/
def width : Storage × List Nat × Nat → Nat
  | (storage, literals, wkt) =>
    match storage with
    | .i32 | .p32 => 32
    | .i64 | .p64 => 64
    | .f64 => 0
    | _ => if wkt ≠ 0 then 1 else max 1 (bitLength (literals.length - 1))

/-- The loop of `Mapper::leaf` over the source IDs: each one is in range and has a compatible
type. -/
def establish (t : Types) (maxId scalarType : Nat) (storage : Storage) (literals : List Nat) :
    List Nat → ScalarTable → Read ScalarTable
  | [], table => pure table
  | id :: ids, table => do
    ensure (!(id == 0 || decide (maxId < id)))
      (malformed "hierarchy scalar ID exceeds table boundary")
    match table.get id with
    | some previous =>
      match t.scalar previous with
      | none => Decoder.fail (malformed "established source scalar")
      | some (previousStorage, previousLiterals, _) => do
        ensure (storage == previousStorage && literals.length == previousLiterals.length)
          (malformed "incompatible scalar alias storage")
        establish t maxId scalarType storage literals ids table
    | none => establish t maxId scalarType storage literals ids (table.insert id scalarType)

/-- The loop of `Mapper::leaf` over the subtypes of an enumeration: the ordinals that their ranges
admit. -/
def allowedLoop (t : Types) : Nat → Nat → List Bool → Read (List Bool)
  | 0, _, allowed => pure allowed
  | fuel + 1, node, allowed =>
    match t.shape? node with
    | some (.alias base none) => allowedLoop t fuel base allowed
    | some (.alias base (some range)) =>
      match range.integerBounds with
      | none => Decoder.fail (malformed "non-integral enum subtype")
      | some (left, right) =>
        let null := if range.downto then decide (left < right) else decide (right < left)
        allowedLoop t fuel base (allowed.mapIdx fun (ordinal : Nat) allowed =>
          allowed && (!null && decide (min left right ≤ ordinal ∧ ordinal ≤ max left right)))
    | _ => pure allowed

/-- A number in binary digits, at least `width` of them. -/
def binary (width ordinal : Nat) : String :=
  String.ofList ((Nat.toDigits 2 ordinal).leftpad width '0')

/-- The enumeration of a leaf: an enumeration type that is no well-known one has one. -/
def enumeration (t : Types) (scalarType : Nat) (enumerated : Bool) (literals : List Nat)
    (width : Nat) (encoding : Encoding) : Read (Option EnumerationData) :=
  if enumerated then do
    let allowed ← allowedLoop t t.nodes.length scalarType (literals.map fun _ => true)
    let variants := (literals.zip allowed).zipIdx.filterMap fun ((label, allowed), ordinal) =>
      if allowed then some (binary width ordinal, t.strings.getD label "") else none
    pure (EnumerationData.forEncoding (t.name scalarType) variants encoding)
  else pure none

/-- The scalar type of a leaf: that of the elements of a vector. -/
def leafType (t : Types) (id : Nat) : Read Nat :=
  if (t.scalar id).isNone then
    match t.shape? (t.effective id) with
    | some (.array element _ _) => pure element
    | _ => Decoder.fail (malformed "vector without array type")
  else pure id

/-- `Mapper::leaf`. -/
def leaf (t : Types) (m : Mapper) (name : String) (parent : Option Nat) (id : Nat)
    (ids : List Nat) (direction : Direction) (range : Option BitRange) : Read Mapper := do
  let vector := (t.scalar id).isNone
  let scalarType ← leafType t id
  match t.scalar scalarType with
  | none => Decoder.fail (malformed "non-scalar leaf")
  | some (storage, literals, wkt) => do
    let scalarTypes ← establish t m.maxId scalarType storage literals ids m.scalarTypes
    ensure (!vector || decide (ids.length < 2 ^ 32)) (unsupported "vector width above u32")
    let width := if vector then ids.length else width (storage, literals, wkt)
    let encoding := if storage == .f64 then Encoding.real else .bits width
    let signal := m.recipes.leafSignal ⟨ids, encoding, scalarType, vector⟩
    let enumerated := !vector && storage.isEnum && wkt == 0
    let enumeration ← enumeration t scalarType enumerated literals width encoding
    let data : VariableData :=
      { name, readerName := none, nameWasEscaped := false, parent,
        kind := if direction = .implicit then "signal" else "port",
        direction, range, isConstant := false, typeName := t.name id,
        signedness := if storage ∈ [Storage.i32, .i64, .p32, .p64] then some .signed else none,
        logicDomain := if wkt = 1 ∨ wkt = 2 then some .twoState
          else if wkt = 3 then some .nineState else none,
        enumeration, signal := signal.2 }
    pure { m with vars := m.vars ++ [data], recipes := signal.1, scalarTypes }

end Mapper

/-! ## Objects -/

/-- A piece of work of `Mapper::object`. -/
inductive Work where
  | object (name : String) (parent : Option Nat) (id : Nat)
  | dimension (parent array dimension : Nat) (next : Int) (remaining : Nat)
  deriving DecidableEq, Repr

namespace Types

/-- An array of logic with one integer index is a vector. -/
def isVector (t : Types) (element : Nat) : List Nat → Bool
  | [index] =>
    ((t.scalar index).any fun scalar => scalar.1 == .i32 || scalar.1 == .i64) &&
      (t.scalar element).any fun scalar => scalar.2.2 == 2 || scalar.2.2 == 3
  | _ => false

/-- `dimension_bounds`: the first position of a dimension and the number of positions. -/
def dimensionBounds (range : Range) : Read (Int × Nat) :=
  match range.integerBounds with
  | none => Decoder.fail (malformed "non-integral array dimension")
  | some ends => pure (ends.1, range.span ends)

/-- The bounds of a dimension of an array. -/
def dimensionBoundsAt (bounds : List Range) (dimension : Nat) : Read (Int × Nat) :=
  match bounds[dimension]? with
  | none => Decoder.fail (malformed "missing array dimension")
  | some range => dimensionBounds range

/-- The product of some extents in 128 bits. -/
def elements (extents : List Nat) : Option Nat :=
  extents.foldlM (fun count extent =>
    if count * extent < 2 ^ 128 then some (count * extent) else none) 1

/-- The name of a position of an array: the label of an enumeration literal, or the number. -/
def component (t : Types) (storage : Storage) (labels : List Nat) (next : Int) : Read String :=
  if storage.isEnum then
    match (if next < 0 then none else labels[next.toNat]?) with
    | none => Decoder.fail (malformed "enum array index out of range")
    | some label =>
      let text := t.strings.getD label ""
      pure s!"[{text}]"
  else pure s!"[{next}]"

/-- The position after one. -/
def following (downto : Bool) (next : Int) : Read Int := do
  let position := if downto then next - 1 else next + 1
  ensure (decide (-2 ^ 63 ≤ position ∧ position < 2 ^ 63)) (malformed "array index overflow")
  pure position

end Types

namespace Mapper

/-- The branch of `Mapper::object` for a vector. -/
def vector (t : Types) (m : Mapper) (direction : Direction) (name : String) (parent : Option Nat)
    (id : Nat) (bounds : List Range) : Read Mapper :=
  match t.scalars? (t.effective id) with
  | none => Decoder.fail (malformed "unbounded vector")
  | some n => do
    let left ← Decoder.look Wire.left
    ensure (decide (n ≤ left)) (malformed "vector scalar IDs exceed remaining input")
    let ids ← Decoder.times uleb n
    let range ←
      if n = 0 then pure none
      else
        match (bounds[0]?).bind Range.integerBounds with
        | none => Decoder.fail (malformed "non-integral vector bounds")
        | some (left, right) => pure (some (BitRange.mk (.ofInt left) (.ofInt right)))
    m.leaf t name parent id ids direction range

/-- The branch of `Mapper::object` for another array, with the first dimension as the work it
leaves. -/
def array (t : Types) (m : Mapper) (name : String) (parent : Option Nat) (id : Nat)
    (bounds : List Range) : Read (List Work × Mapper) := do
  let empty := t.scalars? (t.effective id) == some 0
  let (m, scope) ← m.scope name parent "array" empty
  let extents ← Decoder.forEach (fun range => do
    let (_, extent) ← Types.dimensionBounds range
    pure extent) bounds
  if 0 ∈ extents then pure ([], m)
  else do
    ensure (!empty ||
        (Types.elements extents).any fun count => decide (count ≤ emptyScopeLimit - m.emptyScopes))
      (unsupported "empty hierarchy expansion above 1000000 scopes")
    let (next, remaining) ← Types.dimensionBoundsAt bounds 0
    pure ([.dimension scope (t.effective id) 0 next remaining], m)

/-- One turn of the loop of `Mapper::object`, with the work that it pushes, the last one first. -/
def turn (t : Types) (direction : Direction) : Work → Mapper → Read (List Work × Mapper)
  | .object name parent id, m => do
    ensure (name != "") (malformed "empty object or field name")
    match t.shape? (t.effective id) with
    | some (.scalar ..) => do
      let sourceId ← uleb
      let m ← m.leaf t name parent id [sourceId] direction none
      pure ([], m)
    | some (.record fields) => do
      let (m, scope) ← m.scope name parent "record" (t.scalars? (t.effective id) == some 0)
      pure (fields.map fun field => .object (t.strings.getD field.1 "") (some scope) field.2, m)
    | some (.array element indices (some bounds)) =>
      if t.isVector element indices then do
        let m ← m.vector t direction name parent id bounds
        pure ([], m)
      else m.array t name parent id bounds
    | some (.array _ _ none) => Decoder.fail (malformed "unbounded hierarchy array")
    | _ => Decoder.fail (malformed "effective type removes aliases")
  | .dimension parent array dimension next remaining, m =>
    if remaining = 0 then pure ([], m)
    else
      match t.shape? array with
      | some (.array element indices (some bounds)) =>
        match (indices[dimension]?).bind t.scalar with
        | none => Decoder.fail (malformed "invalid array index type")
        | some (storage, labels, _) => do
          let component ← t.component storage labels next
          let later ←
            if 1 < remaining then do
              let following ← Types.following ((bounds[dimension]?).any Range.downto) next
              pure [Work.dimension parent array dimension following (remaining - 1)]
            else pure []
          if dimension + 1 = indices.length then
            pure (.object component (some parent) element :: later, m)
          else do
            let (m, scope) ← m.scope component (some parent) "array" (t.scalars? array == some 0)
            let (next, remaining) ← Types.dimensionBoundsAt bounds (dimension + 1)
            pure (.dimension scope array (dimension + 1) next remaining :: later, m)
      | _ => Decoder.fail (malformed "missing array bounds")

end Mapper

namespace Types

/-- The positions of a range. -/
def extentOf (range : Range) : Nat := (range.integerBounds.map range.span).getD 0

/-- The turns for the dimensions of an array, with those for an element. -/
def dimensionTurns (element : Nat) : List Nat → Nat
  | [] => element
  | extent :: extents => extent * (dimensionTurns element extents + 1)

/-- The turns for an object, counted down a chain of at most `depth` nodes. -/
def objectTurns (t : Types) : Nat → Nat → Nat
  | 0, _ => 0
  | depth + 1, id =>
    match t.shape? (t.effective id) with
    | some (.record fields) => (fields.map fun field => objectTurns t depth field.2).sum + 1
    | some (.array element _ (some bounds)) =>
      dimensionTurns (objectTurns t depth element) (bounds.map extentOf) + 1
    | _ => 1

end Types

/-- `Mapper::object`. The loop of the source has no bound; it never takes more turns than these. -/
def Mapper.object (t : Types) (m : Mapper) (name : String) (parent : Option Nat) (id : Nat)
    (direction : Direction) : Read Mapper := do
  let (_, m) ← workLoop (Mapper.turn t direction) (t.objectTurns t.nodes.length id)
    [.object name parent id] m
  pure m

/-! ## The section -/

/-- One entry of the section, after its tag and what it refers to were read. -/
inductive Entry where
  | stop
  | close
  | object (name : String) (id : Nat) (direction : Direction)
  | scope (name kind : String) (opens : Bool)
  deriving DecidableEq, Repr

/-- The direction of an object tag. -/
def objectDirection : Nat → Direction
  | 17 => .input
  | 18 => .output
  | 19 => .inOut
  | 20 => .buffer
  | 21 => .linkage
  | _ => .implicit

/-- The kind of a scope tag. -/
def scopeKind : Nat → String
  | 3 => "block"
  | 4 => "if-generate"
  | 5 => "for-generate"
  | 6 => "instance"
  | 7 => "package"
  | 13 => "process"
  | _ => "ghw:generic"

/-- The iterator of a generate scope, as it is appended to its name. -/
def generateIterator (t : Types) : Read String := do
  let id ← t.typeId
  match t.scalar id with
  | none => Decoder.fail (malformed "non-discrete generate iterator")
  | some (storage, literals, _) => do
    let iterator ←
      match storage with
      | .b2 | .e8 => do
        let ordinal ← byte
        match literals[ordinal.toNat]? with
        | none => Decoder.fail (malformed "generate enum iterator out of range")
        | some label => pure (t.strings.getD label "")
      | .i32 => do
        let value ← sleb 32
        pure (toString value)
      | .i64 => do
        let value ← sleb 64
        pure (toString value)
      | _ => Decoder.fail (malformed "non-discrete generate iterator storage")
    pure s!"({iterator})"

/-- The first half of the loop of `hierarchy::read`: what the next entry asks for. -/
def readEntry (t : Types) : Read Entry := do
  let tag ← byte
  if tag = 0 then pure .stop
  else if tag = 15 then pure .close
  else do
    ensure (decide (tag.toNat ∈ [3, 4, 5, 6, 7, 13, 14, 16, 17, 18, 19, 20, 21]))
      (unsupported s!"hierarchy tag {tag}")
    let nameId ← t.stringId
    let name := t.strings.getD nameId ""
    ensure (!(nameId == 0 || name == "")) (malformed "empty hierarchy name")
    if 16 ≤ tag.toNat then do
      let id ← t.typeId
      ensure (t.scalars? id).isSome (malformed "unbounded hierarchy object type")
      pure (.object name id (objectDirection tag.toNat))
    else do
      let iterator ← if tag = 5 then generateIterator t else pure ""
      pure (.scope (name ++ iterator) (scopeKind tag.toNat) (tag != 13))

/-- The state of `hierarchy::read`, with the scope that was opened last first. -/
structure SectionState where
  mapper : Mapper
  stack : List Nat

/-- The second half of the loop of `hierarchy::read`. -/
def SectionState.apply (t : Types) (s : SectionState) : Entry → Read SectionState
  | .stop => pure s
  | .close =>
    match s.stack with
    | [] => Decoder.fail (malformed "hierarchy scope underflow")
    | _ :: stack => pure { s with stack := stack }
  | .object name id direction => do
    let mapper ← s.mapper.object t name s.stack.head? id direction
    pure { s with mapper := mapper }
  | .scope name kind opens => do
    let (mapper, scope) ← s.mapper.scope name s.stack.head? kind false
    pure ⟨mapper, if opens then scope :: s.stack else s.stack⟩

/-- The loop of `hierarchy::read`, with fuel for the bytes to come. -/
def sectionLoop (t : Types) : Nat → SectionState → Read SectionState
  | 0, _ => Decoder.fail (malformed "truncated field")
  | fuel + 1, s => do
    let entry ← readEntry t
    if entry = .stop then pure s
    else do
      let s ← s.apply t entry
      sectionLoop t fuel s

/-- The header of the section, and the mapper before its entries. -/
def SectionState.start : Read SectionState := do
  zeros
  let _ ← count "hierarchy scope"
  let _ ← count "hierarchy variable"
  let maxId ← count "scalar table"
  let scalarTypes ← Decoder.look (ScalarTable.new maxId)
  pure ⟨⟨[], [], .empty, scalarTypes, maxId, 0⟩, []⟩

/-- The declarations of a file, with the encodings of its signals and the types of its scalars. -/
structure Declarations where
  scopes : List ScopeData
  vars : List VariableData
  encodings : List Encoding
  recipes : List Recipe
  active : List (Nat × Nat)

/-- `hierarchy::read`. -/
def Declarations.read (t : Types) : Read Declarations := do
  let s ← SectionState.start
  let fuel ← Decoder.look fun w => w.rest.length + 1
  let s ← sectionLoop t fuel s
  ensure s.stack.isEmpty (malformed "unclosed hierarchy scopes")
  pure {
    scopes := s.mapper.scopes
    vars := s.mapper.vars
    encodings := s.mapper.recipes.list.map Recipe.encoding
    recipes := s.mapper.recipes.list
    active := s.mapper.scalarTypes.intoActive t }

end Ondas.Ghw
