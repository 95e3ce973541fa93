import Ondas.Ghw.Wire

/-!
# The GHW type table

`Types` is the table of source types: scalars, aliases with an optional range, arrays with optional
bounds and records, each node pointing to others by index. `Types.read` reads it from the wire.
Constrained composites are built by `Types.constrain`, which copies a composite shape and reads the
bounds it lacks, with a stack of work instead of recursion. `Types.wkt` reads the well-known type
markers, which fix the alphabet of a logic type.

An index outside the table, where the source panics, reads as a missing node here.
-/

namespace Ondas.Ghw

open Library Wire

/-! ## Types -/

/-- How a scalar is stored. -/
inductive Storage where
  | b2 | e8 | i32 | i64 | f64 | p32 | p64
  deriving DecidableEq, Repr

/-- `Storage::from_tag`. -/
def Storage.fromTag (tag : UInt8) : Read Storage :=
  match tag.toNat with
  | 22 => pure .b2
  | 23 => pure .e8
  | 25 => pure .i32
  | 26 => pure .i64
  | 27 => pure .f64
  | 28 => pure .p32
  | 29 => pure .p64
  | _ => Decoder.fail (unsupported s!"range/storage tag {tag}")

/-- The storage of an enumeration. -/
def Storage.isEnum (storage : Storage) : Bool := storage == .b2 || storage == .e8

/-- The storage of a physical type. -/
def Storage.isPhysical (storage : Storage) : Bool := storage == .p32 || storage == .p64

/-- An end of a range. -/
inductive Bound where
  | integer (value : Int)
  | real (bits : UInt64)
  deriving DecidableEq, Repr

/-- A scalar range. -/
structure Range where
  storage : Storage
  downto : Bool
  left : Bound
  right : Bound
  deriving DecidableEq, Repr

/-- The type tags of composites and subtypes, which are not the storage of a scalar. -/
def compositeTags : List Nat := [31, 32, 34, 35, 37, 38, 39]

namespace Range

/-- The ends of a range, as `Range::read` reads each of them. -/
def bound (storage : Storage) : Read Bound :=
  match storage with
  | .b2 | .e8 => do
    let byte ← byte
    pure (.integer byte.toNat)
  | .i32 | .p32 => do
    let value ← sleb 32
    pure (.integer value)
  | .i64 | .p64 => do
    let value ← sleb 64
    pure (.integer value)
  | .f64 => do
    let bits ← realBits
    pure (.real bits)

/-- `Range::read`. -/
def read : Read Range := do
  let tag ← byte
  ensure (!decide ((tag &&& 0x7f).toNat ∈ compositeTags))
    (malformed s!"type tag {tag &&& 0x7f} cannot encode a scalar range")
  let storage ← Storage.fromTag (tag &&& 0x7f)
  let left ← bound storage
  let right ← bound storage
  pure ⟨storage, tag &&& 0x80 != 0, left, right⟩

/-- `Range::integer_bounds`. -/
def integerBounds (range : Range) : Option (Int × Int) :=
  match range.left, range.right with
  | .integer left, .integer right => some (left, right)
  | _, _ => none

/-- The number of positions of a range with these ends, none when it is null. -/
def span (range : Range) (ends : Int × Int) : Nat :=
  let distance := if range.downto then ends.1 - ends.2 else ends.2 - ends.1
  if distance < 0 then 0 else distance.toNat + 1

/-- `Range::extent`. -/
def extent (range : Range) : Read Nat :=
  match range.integerBounds with
  | none => Decoder.fail (malformed "real array index range")
  | some ends => pure (range.span ends)

end Range

/-- The shape of a type node. -/
inductive Shape where
  | scalar (storage : Storage) (literals : List Nat) (units : List (Nat × Int)) (wkt : Nat)
  | alias (base : Nat) (range : Option Range)
  | array (element : Nat) (indices : List Nat) (bounds : Option (List Range))
  | record (fields : List (Nat × Nat))
  deriving DecidableEq, Repr

/-- A node of the table: `Type` in the source. -/
structure TypeNode where
  name : Nat
  base : Option Nat
  shape : Shape
  scalars : Option Nat
  deriving DecidableEq, Repr

/-- The type table. `sourceIds` maps the numbers of the file to nodes. -/
structure Types where
  strings : List String
  nodes : List TypeNode
  sourceIds : List Nat

namespace Types

/-! ## Lookups -/

/-- The shape of a node. -/
def shape? (t : Types) (id : Nat) : Option Shape := (t.nodes[id]?).map TypeNode.shape

/-- The scalar count of a node. -/
def scalars? (t : Types) (id : Nat) : Option Nat := (t.nodes[id]?).bind TypeNode.scalars

/-- The loop of `Types::effective`. -/
def effectiveLoop (t : Types) : Nat → Nat → Nat
  | 0, id => id
  | fuel + 1, id =>
    match t.shape? id with
    | some (.alias base _) => effectiveLoop t fuel base
    | _ => id

/-- `Types::effective`: the node an alias stands for. A chain of aliases is no longer than the
table. -/
def effective (t : Types) (id : Nat) : Nat := t.effectiveLoop t.nodes.length id

/-- `Types::scalar`: the storage, the literals and the well-known marker of a scalar. -/
def scalar (t : Types) (id : Nat) : Option (Storage × List Nat × Nat) :=
  match t.shape? (t.effective id) with
  | some (.scalar storage literals _ wkt) => some (storage, literals, wkt)
  | _ => none

/-- The loop of `Types::name`. -/
def nameLoop (t : Types) : Nat → Nat → Option String
  | 0, _ => none
  | fuel + 1, id =>
    match t.nodes[id]? with
    | none => none
    | some node =>
      if node.name ≠ 0 then some (t.strings.getD node.name "")
      else node.base.bind (nameLoop t fuel)

/-- `Types::name`. -/
def name (t : Types) (id : Nat) : Option String := t.nameLoop (t.nodes.length + 1) id

/-- `Types::string_id`. -/
def stringId (t : Types) : Read Nat := do
  let id ← uleb
  ensure (decide (id < t.strings.length)) (malformed "invalid string reference")
  pure id

/-- `Types::type_id`: the numbers of the file start at one. -/
def typeId (t : Types) : Read Nat := do
  let id ← uleb
  match (if id = 0 then none else t.sourceIds[id - 1]?) with
  | none => Decoder.fail (malformed "invalid or forward type reference")
  | some node => pure node

/-- `Types::list_count`. -/
def listCount (context : String) (minBytes : Nat) : Read Nat := do
  let count ← uleb
  let left ← Decoder.look left
  ensure (decide (count ≤ left / minBytes)) (malformed s!"{context} count exceeds remaining input")
  pure count

/-- An end of an enumeration range is one of its literals. -/
def isLiteral (literals : List Nat) (ordinal : Int) : Bool :=
  decide (0 ≤ ordinal) && decide (ordinal.toNat < literals.length)

/-- `Types::validate_range`. -/
def validateRange (t : Types) (base : Nat) (range : Range) : Read Unit :=
  match t.scalar base with
  | none => Decoder.fail (malformed "range base is not scalar")
  | some (storage, literals, _) => do
    ensure (storage == range.storage) (malformed "range storage differs from base type")
    if storage.isEnum then
      match range.integerBounds with
      | none => Decoder.fail (malformed "non-integral enum range")
      | some (left, right) =>
        ensure (isLiteral literals left && isLiteral literals right)
          (malformed "enum range endpoint exceeds base literals")
    else pure ()

/-! ## New nodes -/

/-- `usize::MAX`. -/
def usizeMax : Nat := 2 ^ 64 - 1

/-- A product of extents in 128 bits that fits `usize`. -/
def arrayTotal (n : Nat) (extents : List Nat) : Option Nat :=
  (extents.foldlM (fun total extent =>
    if total * extent < 2 ^ 128 then some (total * extent) else none) n).filter (· ≤ usizeMax)

/-- The count of a record after a field: nothing when a field has none. -/
def addField (t : Types) (count : Option Nat) (field : Nat × Nat) : Read (Option Nat) :=
  match count, t.scalars? field.2 with
  | some a, some b => do
    ensure (decide (a + b ≤ usizeMax)) (malformed "record scalar count overflow")
    pure (some (a + b))
  | _, _ => pure none

/-- The counts of the fields of a record. -/
def addFields (t : Types) : Option Nat → List (Nat × Nat) → Read (Option Nat)
  | count, [] => pure count
  | count, field :: fields => do
    let count ← t.addField count field
    addFields t count fields

/-- The scalar count of a shape, as `Types::push` computes it. -/
def countScalars (t : Types) : Shape → Read (Option Nat)
  | .scalar .. => pure (some 1)
  | .alias base _ => pure (t.scalars? base)
  | .array _ _ none => pure none
  | .array element _ (some bounds) => do
    let extents ← Decoder.forEach Range.extent bounds
    if 0 ∈ extents then pure (some 0)
    else
      match t.scalars? element with
      | none => pure none
      | some n =>
        match arrayTotal n extents with
        | none => Decoder.fail (malformed "array scalar count overflow")
        | some total => pure (some total)
  | .record fields => t.addFields (some 0) fields

/-- `Types::push`. -/
def push (t : Types) (name : Nat) (base : Option Nat) (shape : Shape) : Read (Types × Nat) := do
  let scalars ← t.countScalars shape
  pure ({ t with nodes := t.nodes ++ [⟨name, base, shape, scalars⟩] }, t.nodes.length)

/-! ## Constrained composites -/

/-- A piece of work of `Types::constrain`. -/
inductive Frame where
  | start (base : Nat)
  | array (base : Nat) (indices : List Nat) (bounds : List Range)
  | record (base : Nat) (fields : List (Nat × Nat)) (next : Nat)
  deriving DecidableEq, Repr

/-- The state of `Types::constrain`: the table, the work still to do and the last new node. -/
structure Constraining where
  types : Types
  work : List Frame
  result : Option Nat

/-- The bounds of the dimensions of an array, each checked against its index type. -/
def readBounds (t : Types) (indices : List Nat) : Read (List Range) :=
  Decoder.forEach (fun index => do
    let range ← Range.read
    t.validateRange index range
    pure range) indices

/-- Add a node without a name, which is the new result. -/
def Constraining.finish (c : Constraining) (base : Nat) (shape : Shape) : Read Constraining := do
  let (types, node) ← c.types.push 0 (some base) shape
  pure { c with types := types, result := some node }

/-- The fields of a record from one on that are not constrained yet start here. -/
def firstUnbounded (t : Types) (fields : List (Nat × Nat)) (next : Nat) : Nat :=
  next + ((fields.drop next).takeWhile fun field => (t.scalars? field.2).isSome).length

/-- The fields of a record after its child `next - 1` was constrained. -/
def takeChild (fields : List (Nat × Nat)) (next : Nat) (result : Option Nat) : List (Nat × Nat) :=
  match result with
  | some child =>
    if next ≠ 0 then fields.modify (next - 1) fun field => (field.1, child) else fields
  | none => fields

/-- One turn of the loop of `Types::constrain`, after its frame was popped. -/
def Constraining.turn (c : Constraining) : Frame → Read Constraining
  | .start base =>
    match c.types.shape? (c.types.effective base) with
    | some (.array element indices _) => do
      let bounds ← c.types.readBounds indices
      if (c.types.scalars? element).isSome then
        c.finish base (.array element indices (some bounds))
      else pure { c with work := .start element :: .array base indices bounds :: c.work }
    | some (.record fields) => pure { c with work := .record base fields 0 :: c.work }
    | _ => Decoder.fail (malformed "composite bounds have non-composite base")
  | .array base indices bounds =>
    match c.result with
    | none => Decoder.fail (malformed "missing nested array constraints")
    | some element =>
      { c with result := none }.finish base (.array element indices (some bounds))
  | .record base fields next =>
    let result := if next ≠ 0 then none else c.result
    let fields := takeChild fields next c.result
    let next := c.types.firstUnbounded fields next
    match fields[next]? with
    | none => { c with result := result }.finish base (.record fields)
    | some (_, child) =>
      pure { c with result := result,
                    work := .start child :: .record base fields (next + 1) :: c.work }

/-- The loop of `Types::constrain`. -/
def constrainLoop : Nat → Constraining → Read Constraining
  | 0, c => pure c
  | fuel + 1, c =>
    match c.work with
    | [] => pure c
    | frame :: work => do
      let c ← { c with work := work }.turn frame
      constrainLoop fuel c

/-- The turns that the frames of a node take, counted down a chain of at most `depth` nodes: one
for its start, one for its own frame, and those of each child it may have to constrain. -/
def turns (t : Types) : Nat → Nat → Nat
  | 0, _ => 0
  | depth + 1, id =>
    match t.shape? (t.effective id) with
    | some (.array element _ _) => 2 + turns t depth element
    | some (.record fields) => 2 + (fields.map fun field => 1 + turns t depth field.2).sum
    | _ => 1

/-- `Types::constrain`. The loop of the source has no bound; it never takes more turns than
these. -/
def constrain (t : Types) (base : Nat) : Read (Types × Nat) := do
  let c ← constrainLoop (t.turns t.nodes.length base + 1) ⟨t, [.start base], none⟩
  match c.result with
  | none => Decoder.fail (malformed "missing composite constraints")
  | some node => pure (c.types, node)

/-! ## Reading the table -/

/-- The tags of the types that can be read. -/
def knownTags : List Nat := [22, 23, 25, 26, 27, 28, 29, 31, 32, 34, 35, 37, 38, 39]

/-- A scalar type: the literals of an enumeration, the units of a physical type. -/
def readScalar (t : Types) (name : Nat) (tag : UInt8) : Read (Types × Nat) := do
  let storage ← Storage.fromTag tag
  let version ← Decoder.look Wire.version
  let (literals, units) ←
    if storage.isEnum then do
      let n ← uleb
      ensure (!(n == 0 || decide (256 < n) || (storage == .b2 && n != 2)))
        (malformed "enum literal count does not fit its storage")
      let literals ← Decoder.times t.stringId n
      pure (literals, [])
    else if storage.isPhysical && version == 1 then do
      let n ← listCount "physical unit" 2
      let units ← Decoder.times (do
        let unit ← t.stringId
        let factor ← sleb 64
        pure (unit, factor)) n
      pure ([], units)
    else pure ([], [])
  t.push name none (.scalar storage literals units 0)

/-- A scalar subtype. -/
def readSubtype (t : Types) (name : Nat) : Read (Types × Nat) := do
  let base ← t.typeId
  let range ← Range.read
  t.validateRange base range
  t.push name (some base) (.alias base (some range))

/-- An array type without bounds. -/
def readArray (t : Types) (name : Nat) : Read (Types × Nat) := do
  let element ← t.typeId
  let n ← listCount "array dimension" 1
  ensure (n != 0) (malformed "array without dimensions")
  let indices ← Decoder.times (do
    let index ← t.typeId
    ensure (((t.scalar index).map Prod.fst).any fun storage =>
      decide (storage ∈ [Storage.b2, .e8, .i32, .i64]))
      (malformed "non-discrete array index type")
    pure index) n
  t.push name none (.array element indices none)

/-- A record type. -/
def readRecord (t : Types) (name : Nat) : Read (Types × Nat) := do
  let n ← listCount "record field" 2
  let fields ← Decoder.times (do
    let field ← t.stringId
    let type ← t.typeId
    pure (field, type)) n
  t.push name none (.record fields)

/-- The composite shape that a subtype tag asks for: an array for `array`, a record otherwise. -/
def hasShape (t : Types) (id : Nat) (array : Bool) : Bool :=
  match t.shape? (t.effective id) with
  | some (.array ..) => array
  | some (.record ..) => !array
  | _ => false

/-- A composite subtype with bounds. -/
def readBounded (t : Types) (name : Nat) (array : Bool) : Read (Types × Nat) := do
  let base ← t.typeId
  ensure (t.hasShape base array) (malformed "composite subtype base has wrong shape")
  let (t, node) ← t.constrain base
  pure ({ t with nodes := t.nodes.modify node fun entry => { entry with name := name } }, node)

/-- A composite subtype without bounds. -/
def readUnbounded (t : Types) (name : Nat) (array : Bool) : Read (Types × Nat) := do
  let base ← t.typeId
  ensure (t.hasShape base array && (t.scalars? base).isNone)
    (malformed "unbounded alias base has wrong shape")
  t.push name (some base) (.alias base none)

/-- One type of the table. -/
def readType (t : Types) : Read Types := do
  let tag ← byte
  ensure (decide (tag.toNat ∈ knownTags)) (unsupported s!"type tag {tag}")
  let name ← t.stringId
  let (t, node) ←
    match tag.toNat with
    | 22 | 23 | 25 | 26 | 27 | 28 | 29 => t.readScalar name tag
    | 34 => t.readSubtype name
    | 31 => t.readArray name
    | 32 => t.readRecord name
    | 35 => t.readBounded name true
    | 38 => t.readBounded name false
    | 37 => t.readUnbounded name true
    | 39 => t.readUnbounded name false
    | _ => Decoder.fail (unsupported s!"type tag {tag}")
  pure { t with sourceIds := t.sourceIds ++ [node] }

/-- The types of the table. -/
def readTypes : Nat → Types → Read Types
  | 0, t => pure t
  | n + 1, t => do
    let t ← t.readType
    readTypes n t

/-- `Types::read`. -/
def read (strings : List String) : Read Types := do
  marker "TYP\x00"
  zeros
  let count ← count "type"
  let left ← Decoder.look left
  ensure (decide (count ≤ left / 2)) (malformed "type count exceeds remaining input")
  let t ← readTypes count ⟨strings, [], []⟩
  let terminator ← byte
  ensure (terminator == 0) (malformed "missing type table terminator")
  pure t

/-! ## Well-known types -/

/-- The literals of a well-known type, and the alphabet of its digits. -/
def wellKnown : Nat → Option (Storage × List String)
  | 1 => some (.b2, ["false", "true"])
  | 2 => some (.b2, ["'0'", "'1'"])
  | 3 => some (.e8, ["'U'", "'X'", "'0'", "'1'", "'Z'", "'W'", "'L'", "'H'", "'-'"])
  | _ => none

/-- One marker of `Types::wkt`. -/
def markWkt (t : Types) (marker : Nat) : Read Types := do
  ensure (decide (marker ≤ 3)) (unsupported s!"well-known type marker {marker}")
  let id ← t.typeId
  match t.shape? id with
  | some (.scalar storage literals units wkt) =>
    match wellKnown marker with
    | none => Decoder.fail (unsupported s!"well-known type marker {marker}")
    | some (expectedStorage, expected) => do
      ensure (storage == expectedStorage &&
          literals.map (fun i => t.strings.getD i "") == expected && (wkt == 0 || wkt == marker))
        (malformed "well-known marker contradicts enum storage/literals")
      pure { t with nodes := t.nodes.modify id fun node =>
        { node with shape := .scalar storage literals units marker } }
  | _ => Decoder.fail (malformed "well-known marker on non-enum type")

/-- The loop of `Types::wkt`, with fuel for the bytes to come. -/
def wktLoop : Nat → Types → Read Types
  | 0, _ => Decoder.fail (malformed "truncated field")
  | fuel + 1, t => do
    let marker ← byte
    if marker = 0 then pure t
    else do
      let t ← t.markWkt marker.toNat
      wktLoop fuel t

/-- `Types::wkt`. -/
def wkt (t : Types) : Read Types := do
  zeros
  let fuel ← Decoder.look fun w => w.rest.length + 1
  wktLoop fuel t

end Types

end Ondas.Ghw
