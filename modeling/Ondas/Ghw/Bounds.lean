import Ondas.Ghw.Constrain

/-!
# The index ranges of arrays

The reading of the type table checks every bound of an array against the index type of its
dimension. So an array of an accepted table has dimensions, its index types are discrete, and a
bound has integer ends that fit 64 bits and are literals when the index type is an enumeration
(`Types.Indexed`). A new node keeps this (`push_indexed`), the work stack of the constraints does
(`Constraining.Inv`), and so do the well-known markers, which change neither the storage nor the
literals of a scalar. A table that was read is well-formed then (`read_wellFormed`,
`WellFormed.markWkt`).
-/

namespace Ondas.Ghw

open Library Wire

/-- The values of `i64`. -/
def IsI64 (value : Int) : Prop := -2 ^ 63 ≤ value ∧ value < 2 ^ 63

/-- The storage of an index type. -/
def Storage.isDiscrete (storage : Storage) : Bool :=
  decide (storage ∈ [Storage.b2, .e8, .i32, .i64])

/-! ## Ranges that are read -/

/-- What the results of the groups satisfy, a field satisfies. -/
theorem lebLoop_ensures {V R : Type} {P : R → Prop} {turn : Nat → V → UInt8 → LebTurn V R}
    (hturn : ∀ group value byte result, turn group value byte = .done result → P result)
    (exceeds unterminated : String) (fuel group : Nat) (value : V) :
    Decoder.Ensures P (lebLoop turn exceeds unterminated fuel group value) := by
  induction fuel generalizing group value with
  | zero => exact .fail _
  | succ fuel ih =>
    refine (Decoder.Ensures.trivial _).bind fun b _ => ?_
    cases h : turn group value b with
    | exceeds => exact .fail _
    | more value => exact ih _ _
    | done result => exact .pure (hturn _ _ _ _ h)

/-- A signed field fits 64 bits. -/
theorem sleb_ensures (bits : Nat) : Decoder.Ensures IsI64 (sleb bits) := by
  refine lebLoop_ensures (fun group value byte result h => ?_) _ _ _ _ _
  unfold slebTurn at h
  dsimp only at h
  repeat' split at h
  all_goals cases h
  all_goals exact ⟨Int64.le_toInt _, Int64.toInt_lt _⟩

/-- The ends of a range of no reals are integers. -/
theorem Range.bound_ensures (storage : Storage) :
    Decoder.Ensures (fun bound => storage ≠ .f64 → ∃ value, bound = .integer value ∧ IsI64 value)
      (Range.bound storage) := by
  have hsleb : ∀ bits, Decoder.Ensures
      (fun bound => storage ≠ .f64 → ∃ value, bound = Bound.integer value ∧ IsI64 value)
      (do let value ← sleb bits; pure (.integer value)) := fun bits =>
    (sleb_ensures bits).bind fun value hvalue => .pure fun _ => ⟨value, rfl, hvalue⟩
  have hbyte : Decoder.Ensures
      (fun bound => storage ≠ .f64 → ∃ value, bound = Bound.integer value ∧ IsI64 value)
      (do let byte ← byte; pure (.integer byte.toNat)) := by
    refine (Decoder.Ensures.trivial _).bind fun b _ => .pure fun _ => ⟨_, rfl, ?_⟩
    have := b.toNat_lt
    constructor <;> omega
  cases storage with
  | b2 | e8 => exact hbyte
  | i32 | p32 => exact hsleb 32
  | i64 | p64 => exact hsleb 64
  | f64 => exact (Decoder.Ensures.trivial _).bind fun _ _ => .pure fun h => absurd rfl h

/-- A range of no reals has integer ends. -/
theorem Range.read_ensures : Decoder.Ensures (fun range : Range => range.storage ≠ .f64 →
    ∃ ends, range.integerBounds = some ends ∧ IsI64 ends.1 ∧ IsI64 ends.2) Range.read := by
  refine (Decoder.Ensures.trivial _).bind fun tag _ =>
    (Decoder.Ensures.trivial _).bind fun _ _ => ?_
  refine (Decoder.Ensures.trivial _).bind fun storage _ => ?_
  refine (Range.bound_ensures storage).bind fun left hleft => ?_
  refine (Range.bound_ensures storage).bind fun right hright => .pure fun hstorage => ?_
  obtain ⟨l, rfl, hl⟩ := hleft hstorage
  obtain ⟨r, rfl, hr⟩ := hright hstorage
  exact ⟨(l, r), rfl, hl, hr⟩

namespace Types

/-! ## Index types and their ranges -/

/-- A discrete scalar type. -/
def Discrete (t : Types) (index : Nat) : Prop :=
  ∃ storage literals wkt, t.scalar index = some (storage, literals, wkt) ∧
    storage.isDiscrete = true

/-- A range of an index type: its storage is that of the type, and its ends are integers, which are
literals of an enumeration. -/
inductive Indexes (t : Types) (index : Nat) (range : Range) : Prop
  | of {literals : List Nat} {wkt : Nat} {ends : Int × Int} :
      t.scalar index = some (range.storage, literals, wkt) → range.storage.isDiscrete = true →
      range.integerBounds = some ends → IsI64 ends.1 → IsI64 ends.2 →
      (range.storage.isEnum = true →
        isLiteral literals ends.1 = true ∧ isLiteral literals ends.2 = true) →
      Indexes t index range

/-- An array shape has dimensions, with discrete index types and ranges of them. -/
def IndexedShape (t : Types) : Shape → Prop
  | .array _ indices bounds => indices ≠ [] ∧ (∀ index ∈ indices, t.Discrete index) ∧
      ∀ ranges, bounds = some ranges → List.Forall₂ t.Indexes indices ranges
  | _ => True

/-- The arrays of a table have dimensions with index types and ranges of them. -/
def Indexed (t : Types) : Prop := ∀ id shape, t.shape? id = some shape → t.IndexedShape shape

/-- What reading a type table guarantees. -/
structure WellFormed (t : Types) : Prop where
  sound : t.Sound
  indexed : t.Indexed

section
variable {t t' : Types} {index id : Nat}

/-- A range that was checked against a discrete type is one of it. -/
theorem validateRange_ensures {range : Range} (hindex : t.Discrete index)
    (hrange : range.storage ≠ .f64 →
      ∃ ends, range.integerBounds = some ends ∧ IsI64 ends.1 ∧ IsI64 ends.2) :
    Decoder.Ensures (fun _ => t.Indexes index range) (t.validateRange index range) := by
  obtain ⟨storage, literals, wkt, hscalar, hdiscrete⟩ := hindex
  unfold validateRange
  rw [hscalar]
  dsimp only
  refine (ensure_ensures _ _).bind fun _ hstorage => ?_
  obtain rfl : storage = range.storage := by simpa using hstorage
  obtain ⟨ends, hends, hleft, hright⟩ := hrange fun h => by rw [h] at hdiscrete; cases hdiscrete
  split
  · next henum =>
    rw [hends]
    dsimp only
    refine (ensure_ensures _ _).mono fun _ hliterals => ?_
    exact .of hscalar hdiscrete hends hleft hright fun _ => by simpa using hliterals
  · next henum => exact .pure (.of hscalar hdiscrete hends hleft hright fun h => absurd h henum)

/-- The bounds that are read are ranges of the index types. -/
theorem readBounds_indexes {indices : List Nat} (hindices : ∀ index ∈ indices, t.Discrete index) :
    Decoder.Ensures (List.Forall₂ t.Indexes indices) (t.readBounds indices) := by
  refine .forEach fun index hindex => Range.read_ensures.bind fun range hrange => ?_
  exact (validateRange_ensures (hindices index hindex) hrange).bind fun _ h => .pure h

/-! ## Tables that agree on scalars -/

/-- Index types and their ranges depend on the storage and the literals of scalars only. -/
theorem Discrete.congr (h : t.Discrete index) (hscalar : ∀ storage literals wkt,
    t.scalar index = some (storage, literals, wkt) →
      ∃ wkt', t'.scalar index = some (storage, literals, wkt')) : t'.Discrete index := by
  obtain ⟨storage, literals, wkt, hs, hdiscrete⟩ := h
  obtain ⟨wkt', hs'⟩ := hscalar storage literals wkt hs
  exact ⟨storage, literals, wkt', hs', hdiscrete⟩

/-- The ranges of an index type depend on its storage and literals only. -/
theorem Indexes.congr {range : Range} (h : t.Indexes index range)
    (hscalar : ∀ storage literals wkt, t.scalar index = some (storage, literals, wkt) →
      ∃ wkt', t'.scalar index = some (storage, literals, wkt')) : t'.Indexes index range := by
  obtain ⟨hs, hdiscrete, hends, hleft, hright, hliterals⟩ := h
  obtain ⟨wkt', hs'⟩ := hscalar _ _ _ hs
  exact .of hs' hdiscrete hends hleft hright hliterals

/-- A shape is indexed by what its references are as scalars, so the check carries over to a table
where these stay. -/
theorem IndexedShape.congr {shape : Shape} (h : t.IndexedShape shape)
    (hscalar : ∀ ref ∈ shape.refs, ∀ storage literals wkt,
      t.scalar ref = some (storage, literals, wkt) →
        ∃ wkt', t'.scalar ref = some (storage, literals, wkt')) : t'.IndexedShape shape := by
  cases shape with
  | array element indices bounds =>
    obtain ⟨hne, hdiscrete, hbounds⟩ := h
    refine ⟨hne, fun index hindex =>
      (hdiscrete index hindex).congr (hscalar index (.tail _ hindex)),
      fun ranges hranges => ?_⟩
    exact forall₂_imp_mem (hbounds ranges hranges) fun index hindex range h =>
      h.congr (hscalar index (.tail _ hindex))
  | scalar | «alias» | record => trivial

/-- What a node is as a scalar does not change when nodes are appended. -/
theorem Extends.scalar (h : t.Extends t') (ht : t.Sound) (ht' : t'.Sound)
    (hid : id < t.nodes.length) : t'.scalar id = t.scalar id := by
  unfold Types.scalar
  rw [h.effective ht ht' hid, h.shape? ((ht.effective_le id).trans_lt hid)]

/-- A shape of a table is indexed in a longer one too. -/
theorem IndexedShape.extends {shape : Shape} (h : t.IndexedShape shape) (ht : t.Sound)
    (ht' : t'.Sound) (hext : t.Extends t') (hrefs : ∀ ref ∈ shape.refs, ref < t.nodes.length) :
    t'.IndexedShape shape :=
  h.congr fun ref href _ _ wkt hs =>
    ⟨wkt, (hext.scalar ht ht' (hrefs ref href)).trans hs⟩

/-- The lookups depend on the shapes of the nodes. -/
theorem scalar_congr (hshape : ∀ id, t'.shape? id = t.shape? id)
    (hlength : t'.nodes.length = t.nodes.length) (id : Nat) : t'.scalar id = t.scalar id := by
  have hloop : ∀ fuel id, t'.effectiveLoop fuel id = t.effectiveLoop fuel id := by
    intro fuel
    induction fuel with
    | zero => exact fun _ => rfl
    | succ fuel ih =>
      intro id
      rw [effectiveLoop_succ, effectiveLoop_succ, hshape]
      split
      · next base _ _ => exact ih base
      · rfl
  unfold Types.scalar effective
  rw [hlength, hloop, hshape]

/-- Names and numbers do not matter for the arrays. -/
theorem Indexed.congr (h : t.Indexed) (hshape : ∀ id, t'.shape? id = t.shape? id)
    (hlength : t'.nodes.length = t.nodes.length) : t'.Indexed := by
  intro id shape hs
  rw [hshape] at hs
  exact (h id shape hs).congr fun ref _ storage literals wkt hr =>
    ⟨wkt, (scalar_congr hshape hlength ref).trans hr⟩

/-- A new node with an indexed shape keeps the arrays of the table indexed. -/
theorem push_indexed (ht : t.Sound) (hindexed : t.Indexed) (name : Nat) (base : Option Nat)
    {shape : Shape} (hshape : t.IndexedShape shape) :
    Decoder.Ensures (fun r : Types × Nat => r.1.Sound → r.1.Indexed) (t.push name base shape) := by
  intro w r w' hrun hsound id shape' hs
  obtain ⟨n, v, -, hpure⟩ := Decoder.bind_eq_ok.1 hrun
  cases hpure
  have hext : t.Extends { t with nodes := t.nodes ++ [⟨name, base, shape, n⟩] } :=
    ⟨rfl, rfl, List.prefix_append _ _⟩
  by_cases hlt : id < t.nodes.length
  · rw [hext.shape? hlt] at hs
    exact (hindexed id shape' hs).extends ht hsound hext fun ref href =>
      (ht.refs_lt hs ref href).trans hlt
  · obtain rfl : id = t.nodes.length := by
      have := lt_of_shape? hs
      rw [List.length_append, List.length_singleton] at this
      omega
    have hrefs := hsound.refs_lt hs
    rw [Types.shape?, List.getElem?_concat_length] at hs
    cases hs
    exact hshape.extends ht hsound hext hrefs

end

/-! ## Constraints -/

/-- A frame refers to nodes of the table, and the bounds it holds are ranges of their index
types. -/
def FrameIndexed (t : Types) : Frame → Prop
  | .start base => base < t.nodes.length
  | .array base indices bounds => base < t.nodes.length ∧
      (∀ index ∈ indices, index < t.nodes.length) ∧
      t.IndexedShape (.array base indices (some bounds))
  | .record base fields _ => base < t.nodes.length ∧
      ∀ field ∈ fields, field.1 < t.strings.length ∧ field.2 < t.nodes.length

/-- What holds of the work of `Types::constrain` on a table. -/
structure Constraining.Inv (t : Types) (c : Constraining) : Prop where
  sound : c.types.Sound
  indexed : c.types.Indexed
  longer : t.Extends c.types
  work : ∀ frame ∈ c.work, c.types.FrameIndexed frame
  result : ∀ node, c.result = some node → node < c.types.nodes.length

section
variable {t t' : Types} {c : Constraining}

/-- A frame of a table is one of a longer table. -/
theorem FrameIndexed.extends {frame : Frame} (h : t.FrameIndexed frame) (ht : t.Sound)
    (ht' : t'.Sound) (hext : t.Extends t') : t'.FrameIndexed frame := by
  have hlt : ∀ {id}, id < t.nodes.length → id < t'.nodes.length := fun hid =>
    hid.trans_le hext.length_le
  cases frame with
  | start base => exact hlt h
  | array base indices bounds =>
    obtain ⟨hbase, hindices, hshape⟩ := h
    refine ⟨hlt hbase, fun index hindex => hlt (hindices index hindex),
      hshape.extends ht ht' hext fun ref href => ?_⟩
    rcases List.mem_cons.1 href with rfl | href
    · exact hbase
    · exact hindices ref href
  | record base fields next =>
    refine ⟨hlt h.1, fun field hfield => ?_⟩
    obtain ⟨hname, hnode⟩ := h.2 field hfield
    exact ⟨hname.trans_eq (congrArg List.length hext.strings.symm), hlt hnode⟩

/-- The invariant of other work on the same table. -/
theorem Constraining.Inv.rework (hc : Constraining.Inv t c) {work : List Frame}
    {result : Option Nat} (hwork : ∀ frame ∈ work, c.types.FrameIndexed frame)
    (hresult : ∀ node, result = some node → c.result = some node) :
    Constraining.Inv t { c with work := work, result := result } :=
  ⟨hc.sound, hc.indexed, hc.longer, hwork, fun node hnode => hc.result node (hresult node hnode)⟩

/-- Adding a bounded copy keeps the invariant. -/
theorem Constraining.Inv.finish (hc : Constraining.Inv t c) {base : Nat} {shape : Shape}
    (hnew : c.types.NewNode 0 (some base) shape) (hshape : c.types.IndexedShape shape) :
    Decoder.Ensures (Constraining.Inv t) (c.finish base shape) := by
  intro w c' w' hrun
  obtain ⟨r, v, hpush, hpure⟩ := Decoder.bind_eq_ok.1 hrun
  cases hpure
  obtain ⟨hsound, hext, -, hnode, -⟩ := hc.sound.push hnew w r _ hpush
  have hindexed := push_indexed hc.sound hc.indexed 0 (some base) hshape w r _ hpush hsound
  refine ⟨hsound, hindexed, hc.longer.trans hext, fun frame hframe => ?_, fun node h => ?_⟩
  · exact (hc.work frame hframe).extends hc.sound hsound hext
  · cases h
    exact (List.getElem?_eq_some_iff.1 hnode).1

/-- A field of a record with a copied child is a field of the record, or the child. -/
theorem mem_takeChild {fields : List (Nat × Nat)} {next : Nat} {result : Option Nat}
    {field : Nat × Nat} (h : field ∈ takeChild fields next result) :
    ∃ field' ∈ fields, field.1 = field'.1 ∧ (field.2 = field'.2 ∨ result = some field.2) := by
  unfold takeChild at h
  split at h
  · next child =>
    split at h
    · obtain ⟨i, hi⟩ := List.mem_iff_getElem?.1 h
      rw [List.getElem?_modify] at hi
      obtain ⟨field', hfield', heq⟩ := Option.map_eq_some_iff.1 hi
      refine ⟨field', List.mem_of_getElem? hfield', ?_⟩
      split at heq
      · subst heq
        exact ⟨rfl, .inr rfl⟩
      · subst heq
        exact ⟨rfl, .inl rfl⟩
    · exact ⟨field, h, rfl, .inl rfl⟩
  · exact ⟨field, h, rfl, .inl rfl⟩

/-- An array of a node and index types of the table can be added. -/
theorem newNode_array {base element : Nat} {indices : List Nat} {bounds : List Range}
    (ht : t.Sound) (hbase : base < t.nodes.length) (helement : element < t.nodes.length)
    (hindices : ∀ index ∈ indices, index < t.nodes.length)
    (hshape : t.IndexedShape (.array base indices (some bounds))) :
    t.NewNode 0 (some base) (.array element indices (some bounds)) := by
  refine ⟨fun ref href => ?_, fun text htext => ?_, (hshape.2.2 bounds rfl).length_eq.symm⟩
  · rcases List.mem_cons.1 href with rfl | href
    · exact hbase
    rcases List.mem_cons.1 href with rfl | href
    · exact helement
    · exact hindices ref href
  · obtain rfl := List.mem_singleton.1 htext
    exact ht.strings_pos hbase

/-- A turn of the constraints keeps the invariant. -/
theorem Constraining.Inv.turn (hc : Constraining.Inv t c) {frame : Frame}
    (hframe : c.types.FrameIndexed frame) : Decoder.Ensures (Constraining.Inv t)
      (c.turn frame) := by
  cases frame with
  | start base =>
    have heffective := (hc.sound.effective_le base).trans_lt hframe
    unfold Constraining.turn
    dsimp only
    cases hshape : c.types.shape? (c.types.effective base) with
    | none => exact .fail _
    | some shape =>
      have hrefs := fun ref href => (hc.sound.refs_lt hshape ref href).trans heffective
      cases shape with
      | scalar | «alias» => exact .fail _
      | array element indices old =>
        obtain ⟨hne, hdiscrete, -⟩ := hc.indexed _ _ hshape
        have hindices := fun index hindex => hrefs index (.tail _ hindex)
        refine (readBounds_indexes hdiscrete).bind fun bounds hbounds => ?_
        have hnew : c.types.IndexedShape (.array base indices (some bounds)) :=
          ⟨hne, hdiscrete, fun ranges hranges => by cases hranges; exact hbounds⟩
        refine .ite (fun _ => ?_) fun _ => .pure (hc.rework ?_ fun _ h => h)
        · exact hc.finish (newNode_array hc.sound hframe
            (hrefs element (.head _)) hindices hnew) hnew
        · intro frame hmem
          rcases List.mem_cons.1 hmem with rfl | hmem
          · exact hrefs element (.head _)
          rcases List.mem_cons.1 hmem with rfl | hmem
          · exact ⟨hframe, hindices, hnew⟩
          · exact hc.work frame hmem
      | record fields =>
        refine .pure (hc.rework (fun frame hmem => ?_) fun _ h => h)
        rcases List.mem_cons.1 hmem with rfl | hmem
        · refine ⟨hframe, fun field hfield => ⟨?_, hrefs field.2 (List.mem_map_of_mem hfield)⟩⟩
          obtain ⟨node, hnode, heq⟩ := shape?_eq_some.1 hshape
          refine (hc.sound.nodes _ node hnode).texts field.1 (.tail _ ?_)
          rw [heq]
          exact List.mem_map_of_mem hfield
        · exact hc.work frame hmem
  | array base indices bounds =>
    obtain ⟨hbase, hindices, hshape⟩ := hframe
    have hnone : Constraining.Inv t { c with result := none } := hc.rework hc.work nofun
    unfold Constraining.turn
    dsimp only
    cases hresult : c.result with
    | none => exact .fail _
    | some element =>
      have helement := hc.result element hresult
      exact hnone.finish (newNode_array hc.sound hbase helement hindices hshape) hshape
  | record base fields next =>
    obtain ⟨hbase, hfields⟩ := hframe
    have hkept : ∀ node, (if next ≠ 0 then none else c.result) = some node →
        c.result = some node := by
      intro node h
      split at h
      · cases h
      · exact h
    have htaken : ∀ field ∈ takeChild fields next c.result,
        field.1 < c.types.strings.length ∧ field.2 < c.types.nodes.length := by
      intro field hfield
      obtain ⟨field', hmem, hname, hnode⟩ := mem_takeChild hfield
      refine ⟨hname ▸ (hfields field' hmem).1, ?_⟩
      rcases hnode with hnode | hnode
      · exact hnode ▸ (hfields field' hmem).2
      · exact hc.result _ hnode
    unfold Constraining.turn
    dsimp only
    split
    · have hrest := hc.rework hc.work hkept
      refine hrest.finish ⟨fun ref href => ?_, fun text htext => ?_, trivial⟩ trivial
      · rcases List.mem_cons.1 href with rfl | href
        · exact hbase
        · obtain ⟨field, hfield, rfl⟩ := List.mem_map.1 href
          exact (htaken field hfield).2
      · rcases List.mem_cons.1 htext with rfl | htext
        · exact hc.sound.strings_pos hbase
        · obtain ⟨field, hfield, rfl⟩ := List.mem_map.1 htext
          exact (htaken field hfield).1
    · next child hchild =>
      refine .pure (hc.rework (fun frame hmem => ?_) hkept)
      rcases List.mem_cons.1 hmem with rfl | hmem
      · exact (htaken _ (List.mem_of_getElem? hchild)).2
      rcases List.mem_cons.1 hmem with rfl | hmem
      · exact ⟨hbase, htaken⟩
      · exact hc.work frame hmem

/-- The loop of the constraints keeps the invariant. -/
theorem Constraining.Inv.loop (fuel : Nat) (hc : Constraining.Inv t c) :
    Decoder.Ensures (Constraining.Inv t) (constrainLoop fuel c) := by
  induction fuel generalizing c with
  | zero => exact .pure hc
  | succ fuel ih =>
    unfold constrainLoop
    cases hwork : c.work with
    | nil => exact .pure hc
    | cons frame work =>
      have hframes : ∀ frame' ∈ frame :: work, c.types.FrameIndexed frame' := hwork ▸ hc.work
      have hrest := hc.rework (fun frame' h => hframes frame' (.tail _ h)) fun _ h => h
      exact (hrest.turn (hframes frame (.head _))).bind fun c' hc' => ih hc'

/-- `Types::constrain` keeps the arrays indexed. -/
theorem constrain_indexed (ht : t.Sound) (hindexed : t.Indexed) {base : Nat}
    (hbase : base < t.nodes.length) :
    Decoder.Ensures (fun r : Types × Nat => r.1.Indexed) (t.constrain base) := by
  have hstart : Constraining.Inv t ⟨t, [.start base], none⟩ := by
    refine ⟨ht, hindexed, .refl t, fun frame hframe => ?_, nofun⟩
    obtain rfl := List.mem_singleton.1 hframe
    exact hbase
  refine (hstart.loop _).bind fun c hc => ?_
  cases c.result with
  | none => exact .fail _
  | some node => exact .pure hc.indexed

end

/-! ## The entries of the table -/

/-- What an entry makes of the table is indexed, once it is sound. -/
def KeepsIndexed (r : Types × Nat) : Prop := r.1.Sound → r.1.Indexed

section
variable {t : Types}

/-- A scalar type. -/
theorem readScalar_indexed (ht : t.Sound) (hindexed : t.Indexed) (name : Nat) (tag : UInt8) :
    Decoder.Ensures KeepsIndexed (t.readScalar name tag) := by
  refine (Decoder.Ensures.trivial _).bind fun storage _ => ?_
  refine (Decoder.Ensures.trivial _).bind fun version _ => ?_
  have hpush : ∀ p : List Nat × List (Nat × Int), True →
      Decoder.Ensures KeepsIndexed (t.push name none (.scalar storage p.1 p.2 0)) := fun _ _ =>
    push_indexed ht hindexed _ _ trivial
  dsimp only
  refine .ite (fun _ => ?_) fun _ => .ite (fun _ => ?_) fun _ =>
    (Decoder.Ensures.trivial _).bind hpush
  · refine (Decoder.Ensures.trivial _).bind fun n _ =>
      (Decoder.Ensures.trivial _).bind fun _ _ => ?_
    exact (Decoder.Ensures.trivial _).bind fun _ _ => (Decoder.Ensures.trivial _).bind hpush
  · refine (Decoder.Ensures.trivial _).bind fun n _ => ?_
    exact (Decoder.Ensures.trivial _).bind fun _ _ => (Decoder.Ensures.trivial _).bind hpush

/-- A scalar subtype. -/
theorem readSubtype_indexed (ht : t.Sound) (hindexed : t.Indexed) (name : Nat) :
    Decoder.Ensures KeepsIndexed (t.readSubtype name) := by
  refine (Decoder.Ensures.trivial _).bind fun base _ => ?_
  refine (Decoder.Ensures.trivial _).bind fun range _ => ?_
  exact (Decoder.Ensures.trivial _).bind fun _ _ => push_indexed ht hindexed _ _ trivial

/-- An array type: it has dimensions, and each index type is checked. -/
theorem readArray_indexed (ht : t.Sound) (hindexed : t.Indexed) (name : Nat) :
    Decoder.Ensures KeepsIndexed (t.readArray name) := by
  refine (Decoder.Ensures.trivial _).bind fun element _ => ?_
  refine (Decoder.Ensures.trivial _).bind fun n _ => (ensure_ensures _ _).bind fun _ hn => ?_
  have hindex : Decoder.Ensures t.Discrete (do
      let index ← t.typeId
      ensure (((t.scalar index).map Prod.fst).any fun storage =>
          decide (storage ∈ [Storage.b2, .e8, .i32, .i64]))
            (malformed "non-discrete array index type")
      pure index) := by
    refine (Decoder.Ensures.trivial _).bind fun index _ => (ensure_ensures _ _).bind fun _ h => ?_
    obtain ⟨storage, hstorage, hdiscrete⟩ := (Option.any_eq_true _ _).1 h
    obtain ⟨⟨_, literals, wkt⟩, hscalar, rfl⟩ := Option.map_eq_some_iff.1 hstorage
    exact .pure ⟨_, literals, wkt, hscalar, hdiscrete⟩
  refine (hindex.times n).bind fun indices hindices => ?_
  refine push_indexed ht hindexed _ _ ⟨fun hnil => ?_, hindices.2, nofun⟩
  rw [hnil] at hindices
  rw [← hindices.1] at hn
  cases hn

/-- A record type. -/
theorem readRecord_indexed (ht : t.Sound) (hindexed : t.Indexed) (name : Nat) :
    Decoder.Ensures KeepsIndexed (t.readRecord name) := by
  refine (Decoder.Ensures.trivial _).bind fun n _ => ?_
  exact (Decoder.Ensures.trivial _).bind fun fields _ => push_indexed ht hindexed _ _ trivial

/-- A composite subtype with bounds: the new name changes no shape. -/
theorem readBounded_indexed (ht : t.Sound) (hindexed : t.Indexed) (name : Nat) (array : Bool) :
    Decoder.Ensures KeepsIndexed (t.readBounded name array) := by
  refine ht.typeId.bind fun base hbase => (Decoder.Ensures.trivial _).bind fun _ _ => ?_
  refine (constrain_indexed ht hindexed hbase).bind fun r hr => .pure fun _ => ?_
  refine Indexed.congr hr (fun id => ?_) (List.length_modify ..)
  rw [Types.shape?, Types.shape?, List.getElem?_modify]
  cases r.1.nodes[id]? with
  | none => rfl
  | some node =>
    show some (TypeNode.shape (if r.2 = id then _ else node)) = some node.shape
    split <;> rfl

/-- A composite subtype without bounds. -/
theorem readUnbounded_indexed (ht : t.Sound) (hindexed : t.Indexed) (name : Nat) (array : Bool) :
    Decoder.Ensures KeepsIndexed (t.readUnbounded name array) := by
  refine (Decoder.Ensures.trivial _).bind fun base _ =>
    (Decoder.Ensures.trivial _).bind fun _ _ => ?_
  exact push_indexed ht hindexed _ _ trivial

/-- Every entry keeps the table well-formed. -/
theorem WellFormed.readType (ht : t.WellFormed) : Decoder.Ensures WellFormed t.readType := by
  intro w t' w' hrun
  have hsound := (ht.sound.readType w t' w' hrun).1
  refine ⟨hsound, ?_⟩
  have hkeeps : Decoder.Ensures (fun t' : Types => t'.Sound → t'.Indexed) t.readType := by
    refine (Decoder.Ensures.trivial _).bind fun tag _ =>
      (Decoder.Ensures.trivial _).bind fun _ _ => ?_
    refine (Decoder.Ensures.trivial _).bind fun name _ => ?_
    have hdone : ∀ r : Types × Nat, KeepsIndexed r →
        Decoder.Ensures (fun t' : Types => t'.Sound → t'.Indexed)
          (pure { r.1 with sourceIds := r.1.sourceIds ++ [r.2] } : Read Types) := by
      intro r hr
      refine .pure fun hsound => Indexed.congr (hr ⟨fun id node hnode => ?_, fun id hid => ?_⟩)
        (fun _ => rfl) rfl
      · obtain ⟨hrefs, htexts, hbounded, hcount, hfits⟩ := hsound.nodes id node hnode
        exact ⟨hrefs, htexts, hbounded, hcount.trans (count_congr fun _ _ => rfl).symm, hfits⟩
      · exact hsound.sourceIds id (List.mem_append_left _ hid)
    obtain ⟨hs, hi⟩ := ht
    dsimp only
    split
    iterate 7 exact (readScalar_indexed hs hi name tag).bind hdone
    · exact (readSubtype_indexed hs hi name).bind hdone
    · exact (readArray_indexed hs hi name).bind hdone
    · exact (readRecord_indexed hs hi name).bind hdone
    · exact (readBounded_indexed hs hi name true).bind hdone
    · exact (readBounded_indexed hs hi name false).bind hdone
    · exact (readUnbounded_indexed hs hi name true).bind hdone
    · exact (readUnbounded_indexed hs hi name false).bind hdone
    · exact (Decoder.Ensures.fail _).bind hdone
  exact hkeeps w t' w' hrun hsound

/-- A table that was read is well-formed. -/
theorem read_wellFormed (strings : List String) : Decoder.Ensures WellFormed (read strings) := by
  refine (read_ensures strings).mono fun t ht => ?_
  induction ht with
  | start => exact ⟨.empty strings, fun id shape h => by cases h⟩
  | entry _ hrun ih => exact ih.readType _ _ _ hrun

/-! ## Well-known types -/

/-- A well-known marker changes neither the storage nor the literals of a scalar. -/
theorem markWkt_scalar (ht : t.Sound) {id : Nat} {storage : Storage} {literals : List Nat}
    {units : List (Nat × Int)} {wkt : Nat} (marker : Nat)
    (hshape : t.shape? id = some (.scalar storage literals units wkt)) {t' : Types} (ht' : t'.Sound)
    (hmark : ∀ id', t'.shape? id' =
      if id = id' then some (.scalar storage literals units marker) else t.shape? id')
    (index : Nat) (storage' : Storage) (literals' : List Nat) (wkt' : Nat)
    (h : t.scalar index = some (storage', literals', wkt')) :
    ∃ wkt'', t'.scalar index = some (storage', literals', wkt'') := by
  have heffective : t'.effective index = t.effective index := by
    clear h
    induction index using Nat.strongRecOn with
    | ind index ih =>
      rw [ht.effective_eq index, ht'.effective_eq index, hmark]
      by_cases heq : id = index
      · subst heq
        rw [if_pos rfl, hshape]
      · rw [if_neg heq]
        split
        · next base _ hs => exact ih base (ht.alias_lt hs)
        · rfl
  unfold Types.scalar at h ⊢
  rw [heffective, hmark]
  by_cases heq : id = t.effective index
  · rw [← heq, hshape] at h
    rw [if_pos heq]
    cases h
    exact ⟨marker, rfl⟩
  · rw [if_neg heq]
    exact ⟨wkt', h⟩

/-- A well-known marker keeps the table well-formed. -/
theorem WellFormed.markWkt (ht : t.WellFormed) (marker : Nat) :
    Decoder.Ensures WellFormed (t.markWkt marker) := by
  intro w t' w' hrun
  have hsound := (ht.sound.markWkt marker w t' w' hrun).1
  refine ⟨hsound, ?_⟩
  have hkeeps : Decoder.Ensures (fun t' : Types => t'.Sound → t'.Indexed) (t.markWkt marker) := by
    refine (Decoder.Ensures.trivial _).bind fun _ _ =>
      (Decoder.Ensures.trivial _).bind fun id _ => ?_
    cases hshape : t.shape? id with
    | none => exact .fail _
    | some shape =>
      cases shape with
      | scalar storage literals units wkt =>
        dsimp only
        cases wellKnown marker with
        | none => exact .fail _
        | some known =>
          refine (Decoder.Ensures.trivial _).bind fun _ _ => .pure fun hsound => ?_
          have hmark : ∀ id', Types.shape? { t with nodes := t.nodes.modify id fun node =>
              { node with shape := .scalar storage literals units marker } } id' =
              if id = id' then some (.scalar storage literals units marker) else t.shape? id' := by
            intro id'
            rw [Types.shape?, List.getElem?_modify, Types.shape?]
            by_cases heq : id = id'
            · subst heq
              obtain ⟨node, hnode, -⟩ := shape?_eq_some.1 hshape
              rw [hnode, if_pos rfl]
              show some (TypeNode.shape (if id = id then _ else _)) = _
              rw [if_pos rfl]
            · rw [if_neg heq]
              cases t.nodes[id']? with
              | none => rfl
              | some node =>
                show some (TypeNode.shape (if id = id' then _ else _)) = _
                rw [if_neg heq]
                rfl
          have hscalar := markWkt_scalar ht.sound marker hshape hsound hmark
          intro id' shape' hs
          rw [hmark] at hs
          split at hs
          · cases hs
            trivial
          · exact (ht.indexed id' shape' hs).congr fun ref _ => hscalar ref
      | «alias» | array | record => exact .fail _
  exact hkeeps w t' w' hrun hsound

/-- What every marker keeps is kept by the section of well-known types. -/
theorem wkt_ensures {P : Types → Prop}
    (hmark : ∀ t marker, P t → Decoder.Ensures P (Types.markWkt t marker)) (ht : P t) :
    Decoder.Ensures P t.wkt := by
  have hloop : ∀ fuel (t : Types), P t → Decoder.Ensures P (wktLoop fuel t) := by
    intro fuel
    induction fuel with
    | zero => exact fun _ _ => .fail _
    | succ fuel ih =>
      intro t ht
      refine (Decoder.Ensures.trivial _).bind fun marker _ => .ite (fun _ => .pure ht) fun _ => ?_
      exact (hmark t _ ht).bind fun t' ht' => ih t' ht'
  exact (Decoder.Ensures.trivial _).bind fun _ _ =>
    (Decoder.Ensures.trivial _).bind fun fuel _ => hloop fuel t ht

/-- The part of `Reader::parse` between the strings and the hierarchy: the type table, the
section of well-known types if there is one, and the marker of the hierarchy. -/
def parse (strings : List String) : Read Types := do
  let t ← read strings
  let marker ← fixed 4
  let (t, marker) ←
    if marker == ascii "WKT\x00" then do
      let t ← t.wkt
      let marker ← fixed 4
      pure (t, marker)
    else pure (t, marker)
  ensure (marker == ascii "HIE\x00") (malformed "expected HIE section")
  pure t

/-- What holds of a table that was read, and is kept by the section of well-known types, holds of
the table that the reader goes on with. -/
theorem parse_ensures {P : Types → Prop} {strings : List String}
    (hread : Decoder.Ensures P (read strings)) (hwkt : ∀ t, P t → Decoder.Ensures P (Types.wkt t)) :
    Decoder.Ensures P (parse strings) := by
  refine hread.bind fun t ht => (Decoder.Ensures.trivial _).bind fun marker _ => ?_
  have hdone : ∀ t' : Types, P t' → ∀ marker, Decoder.Ensures P (do
      let p ← (pure (t', marker) : Read (Types × List UInt8))
      ensure (p.2 == ascii "HIE\x00") (malformed "expected HIE section")
      pure p.1) := by
    intro t' ht' marker
    have hpair : Decoder.Ensures (fun p : Types × List UInt8 => P p.1)
        (pure (t', marker) : Read (Types × List UInt8)) := .pure ht'
    exact hpair.bind fun p hp => (Decoder.Ensures.trivial _).bind fun _ _ => .pure hp
  dsimp only
  refine .ite (fun _ => ?_) fun _ => hdone t ht marker
  refine (hwkt t ht).bind fun t' ht' => (Decoder.Ensures.trivial _).bind fun marker _ => ?_
  exact hdone t' ht' marker

/-- The table that the reader goes on with is well-formed. -/
theorem parse_wellFormed (strings : List String) : Decoder.Ensures WellFormed (parse strings) :=
  parse_ensures (read_wellFormed strings) fun _ ht =>
    wkt_ensures (fun _ marker ht => ht.markWkt marker) ht

end

end Types

end Ondas.Ghw
