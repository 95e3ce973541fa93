import Mathlib.Data.List.Forall2
import Ondas.Ghw.Types

/-!
# Well-founded type tables

A type table is sound when every node points to earlier nodes only, every string number is in range,
and the scalar count of every node is that of its shape (`Types.Sound`). Then the loops that follow
aliases and bases end (`Sound.effective_eq`, `Sound.name_eq`), and the counts are those of the
layout that the nodes describe (`Sound.layout`). A new node keeps the table sound (`Sound.push`), or
its count overflows (`countScalars_eq`).
-/

namespace Ondas.Ghw

open Library Wire

/-! ## Sound tables -/

/-- The nodes that a shape points to. -/
def Shape.refs : Shape → List Nat
  | .scalar .. => []
  | .alias base _ => [base]
  | .array element indices _ => element :: indices
  | .record fields => fields.map Prod.snd

/-- The string numbers of a shape. -/
def Shape.texts : Shape → List Nat
  | .scalar _ literals units _ => literals ++ units.map Prod.fst
  | .record fields => fields.map Prod.fst
  | _ => []

/-- The bounds of an array shape, if any, are one for each index. -/
def Shape.Bounded : Shape → Prop
  | .array _ indices (some bounds) => bounds.length = indices.length
  | _ => True

/-- The nodes that a node points to. -/
def TypeNode.refs (node : TypeNode) : List Nat := node.base.toList ++ node.shape.refs

/-- The positions of each dimension, unless one is real. -/
def extents (bounds : List Range) : Option (List Nat) :=
  bounds.mapM fun range => range.integerBounds.map range.span

/-- The count of an array: none of a null dimension, whatever its element. -/
def arrayCount (element : Option Nat) (extents : List Nat) : Option Nat :=
  if 0 ∈ extents then some 0 else element.map fun n => n * extents.prod

namespace Types

/-- The counts of the fields of a record, when they all have one. -/
def fieldCounts (t : Types) (fields : List (Nat × Nat)) : Option (List Nat) :=
  fields.mapM fun field => t.scalars? field.2

/-- The count of a shape, by the counts of the nodes it points to. -/
def count (t : Types) : Shape → Option Nat
  | .scalar .. => some 1
  | .alias base _ => t.scalars? base
  | .array _ _ none => none
  | .array element _ (some bounds) => (extents bounds).bind (arrayCount (t.scalars? element))
  | .record fields => (t.fieldCounts fields).map List.sum

/-- A node is sound at a place of a table. -/
structure SoundNode (t : Types) (id : Nat) (node : TypeNode) : Prop where
  refs : ∀ ref ∈ node.refs, ref < id
  texts : ∀ text ∈ node.name :: node.shape.texts, text < t.strings.length
  bounded : node.shape.Bounded
  count : node.scalars = t.count node.shape
  fits : ∀ n, node.scalars = some n → n ≤ usizeMax

/-- Every node points to earlier nodes, every string number is in range, and every count is that of
the shape. -/
structure Sound (t : Types) : Prop where
  nodes : ∀ id node, t.nodes[id]? = some node → t.SoundNode id node
  sourceIds : ∀ id ∈ t.sourceIds, id < t.nodes.length

/-- Nothing is wrong with the empty table. -/
theorem Sound.empty (strings : List String) : Sound ⟨strings, [], []⟩ :=
  ⟨fun id node h => by simp at h, nofun⟩

/-! ## Lookups -/

section
variable {t : Types} {id : Nat}

theorem shape?_eq_some {shape : Shape} :
    t.shape? id = some shape ↔ ∃ node, t.nodes[id]? = some node ∧ node.shape = shape :=
  Option.map_eq_some_iff

theorem lt_of_shape? {shape : Shape} (h : t.shape? id = some shape) : id < t.nodes.length := by
  obtain ⟨node, hnode, -⟩ := shape?_eq_some.1 h
  exact (List.getElem?_eq_some_iff.1 hnode).1

theorem exists_node (h : id < t.nodes.length) : ∃ node, t.nodes[id]? = some node :=
  ⟨_, List.getElem?_eq_getElem h⟩

/-- A shape points to earlier nodes. -/
theorem Sound.refs_lt (ht : t.Sound) {shape : Shape} (h : t.shape? id = some shape) :
    ∀ ref ∈ shape.refs, ref < id := by
  obtain ⟨node, hnode, rfl⟩ := shape?_eq_some.1 h
  exact fun ref href => (ht.nodes id node hnode).refs ref (List.mem_append_right _ href)

theorem Sound.alias_lt (ht : t.Sound) {base : Nat} {range : Option Range}
    (h : t.shape? id = some (.alias base range)) : base < id :=
  ht.refs_lt h base (.head _)

/-- The element of an array has a smaller ID than the array. -/
theorem Sound.element_lt (ht : t.Sound) {element : Nat} {indices : List Nat}
    {bounds : Option (List Range)} (h : t.shape? id = some (.array element indices bounds)) :
    element < id :=
  ht.refs_lt h element (.head _)

/-- A field of a record has a type with a smaller ID than the record. -/
theorem Sound.field_lt (ht : t.Sound) {fields : List (Nat × Nat)}
    (h : t.shape? id = some (.record fields)) {field : Nat × Nat} (hfield : field ∈ fields) :
    field.2 < id :=
  ht.refs_lt h field.2 (List.mem_map_of_mem hfield)

/-- One turn of the loop that follows aliases. -/
theorem effectiveLoop_succ (fuel : Nat) :
    t.effectiveLoop (fuel + 1) id =
      match t.shape? id with
      | some (.alias base _) => t.effectiveLoop fuel base
      | _ => id := rfl

/-- The loop that follows aliases takes no more turns than the number of its node. -/
theorem Sound.effectiveLoop_eq (ht : t.Sound) :
    ∀ {id fuel fuel' : Nat}, id ≤ fuel → id ≤ fuel' →
      t.effectiveLoop fuel id = t.effectiveLoop fuel' id := by
  have hzero : ∀ fuel, t.effectiveLoop fuel 0 = 0 := by
    intro fuel
    cases fuel with
    | zero => rfl
    | succ fuel =>
      rw [effectiveLoop_succ]
      split
      · next base range hshape => exact absurd (ht.alias_lt hshape) (Nat.not_lt_zero _)
      · rfl
  intro id
  induction id using Nat.strongRecOn with
  | ind id ih =>
    intro fuel fuel' h h'
    cases fuel with
    | zero => obtain rfl : id = 0 := by omega
              rw [hzero, hzero]
    | succ fuel =>
      cases fuel' with
      | zero => obtain rfl : id = 0 := by omega
                rw [hzero, hzero]
      | succ fuel' =>
        rw [effectiveLoop_succ, effectiveLoop_succ]
        split
        · next base range hshape =>
          have := ht.alias_lt hshape
          exact ih base this (by omega) (by omega)
        · rfl

/-- `Types::effective` is its loop without a bound. -/
theorem Sound.effective_eq (ht : t.Sound) (id : Nat) :
    t.effective id =
      match t.shape? id with
      | some (.alias base _) => t.effective base
      | _ => id := by
  by_cases hid : id < t.nodes.length
  · have hturn : t.effective id = t.effectiveLoop (t.nodes.length + 1) id :=
      ht.effectiveLoop_eq hid.le (by omega)
    rw [hturn, effectiveLoop_succ]
    split
    · rfl
    · rfl
  · have hnone : t.shape? id = none := by
      rw [shape?, List.getElem?_eq_none (by omega)]; rfl
    rw [hnone]
    unfold effective
    cases t.nodes.length with
    | zero => rfl
    | succ n => rw [effectiveLoop_succ, hnone]

/-- A node that is no alias stands for itself. -/
theorem Sound.effective_self (ht : t.Sound)
    (h : ∀ base range, t.shape? id ≠ some (.alias base range)) : t.effective id = id := by
  rw [ht.effective_eq id]
  split
  · next base range hshape => exact absurd hshape (h base range)
  · rfl

/-- What an alias stands for is no alias. -/
theorem Sound.effective_not_alias (ht : t.Sound) (id base : Nat) (range : Option Range) :
    t.shape? (t.effective id) ≠ some (.alias base range) := by
  induction id using Nat.strongRecOn with
  | ind id ih =>
    rw [ht.effective_eq id]
    split
    · next next range' hshape => exact ih next (ht.alias_lt hshape)
    · next hother => exact hother base range

/-- A node stands for one that is not above it. -/
theorem Sound.effective_le (ht : t.Sound) (id : Nat) : t.effective id ≤ id := by
  induction id using Nat.strongRecOn with
  | ind id ih =>
    rw [ht.effective_eq id]
    split
    · next base range hshape =>
      have hlt := ht.alias_lt hshape
      exact (ih base hlt).trans hlt.le
    · exact le_rfl

/-- The loop that looks for a name takes no more turns than the number of its node, and one. -/
theorem Sound.nameLoop_eq (ht : t.Sound) :
    ∀ {id fuel fuel' : Nat}, id < fuel → id < fuel' →
      t.nameLoop fuel id = t.nameLoop fuel' id := by
  intro id
  induction id using Nat.strongRecOn with
  | ind id ih =>
    intro fuel fuel' h h'
    obtain ⟨fuel, rfl⟩ := Nat.exists_eq_succ_of_ne_zero (Nat.ne_zero_of_lt h)
    obtain ⟨fuel', rfl⟩ := Nat.exists_eq_succ_of_ne_zero (Nat.ne_zero_of_lt h')
    rw [nameLoop, nameLoop]
    cases hnode : t.nodes[id]? with
    | none => rfl
    | some node =>
      dsimp only
      split
      · rfl
      · cases hbase : node.base with
        | none => rfl
        | some base =>
          have : base < id := (ht.nodes id node hnode).refs base
            (List.mem_append_left _ (by rw [hbase]; exact .head _))
          exact ih base this (by omega) (by omega)

/-- `Types::name` is its loop without a bound. -/
theorem Sound.name_eq (ht : t.Sound) (id : Nat) :
    t.name id = (t.nodes[id]?).bind fun node =>
      if node.name ≠ 0 then some (t.strings.getD node.name "") else node.base.bind t.name := by
  rw [name, nameLoop]
  cases hnode : t.nodes[id]? with
  | none => rfl
  | some node =>
    have hlt := (List.getElem?_eq_some_iff.1 hnode).1
    dsimp only [Option.bind_some]
    split
    · rfl
    · cases hbase : node.base with
      | none => rfl
      | some base =>
        have : base < id := (ht.nodes id node hnode).refs base
          (List.mem_append_left _ (by rw [hbase]; exact .head _))
        exact ht.nameLoop_eq (by omega) (by omega)

end

/-! ## The layout of a node -/

/-- A node is laid out in so many scalars: one for a scalar, none for an array with a null
dimension, the positions of an array times those of its element, the sum over the fields of a
record. A node without a layout is not fully bounded. -/
inductive Layout (t : Types) : Nat → Nat → Prop
  | scalar {id : Nat} {storage : Storage} {literals : List Nat} {units : List (Nat × Int)}
      {wkt : Nat} : t.shape? id = some (.scalar storage literals units wkt) → Layout t id 1
  | alias {id base n : Nat} {range : Option Range} :
      t.shape? id = some (.alias base range) → Layout t base n → Layout t id n
  | null {id element : Nat} {indices : List Nat} {bounds : List Range} {dimensions : List Nat} :
      t.shape? id = some (.array element indices (some bounds)) →
      extents bounds = some dimensions → 0 ∈ dimensions → Layout t id 0
  | array {id element n : Nat} {indices : List Nat} {bounds : List Range} {dimensions : List Nat} :
      t.shape? id = some (.array element indices (some bounds)) →
      extents bounds = some dimensions → 0 ∉ dimensions → Layout t element n →
      Layout t id (n * dimensions.prod)
  | record {id : Nat} {fields : List (Nat × Nat)} {counts : List Nat} :
      t.shape? id = some (.record fields) →
      List.Forall₂ (fun field n => Layout t field.2 n) fields counts → Layout t id counts.sum

section
variable {t : Types} {id : Nat}

/-- The count of a node is that of its shape. -/
theorem Sound.scalars_eq (ht : t.Sound) {shape : Shape} (h : t.shape? id = some shape) :
    t.scalars? id = t.count shape := by
  obtain ⟨node, hnode, rfl⟩ := shape?_eq_some.1 h
  rw [scalars?, hnode]
  exact (ht.nodes id node hnode).count

/-- A list is mapped when each member is. -/
theorem mapM_eq_some_iff {α β : Type} {f : α → Option β} {xs : List α} {ys : List β} :
    xs.mapM f = some ys ↔ List.Forall₂ (fun x y => f x = some y) xs ys := by
  induction xs generalizing ys with
  | nil =>
    rw [List.mapM_nil, List.forall₂_nil_left_iff]
    exact Option.some_inj.trans eq_comm
  | cons x xs ih =>
    rw [List.mapM_cons]
    constructor
    · intro h
      obtain ⟨y, hy, h⟩ := Option.bind_eq_some_iff.1 h
      obtain ⟨ys', hys, h⟩ := Option.bind_eq_some_iff.1 h
      cases h
      exact .cons hy (ih.1 hys)
    · rintro (_ | ⟨hy, hys⟩)
      rw [hy, ih.2 hys]
      rfl

/-- Related lists are related in every way their members are. -/
theorem forall₂_imp_mem {α β : Type} {R S : α → β → Prop} {xs : List α} {ys : List β}
    (h : List.Forall₂ R xs ys) (himp : ∀ x ∈ xs, ∀ y, R x y → S x y) : List.Forall₂ S xs ys := by
  induction h with
  | nil => exact .nil
  | cons hxy _ ih =>
    exact .cons (himp _ (.head _) _ hxy) (ih fun x hx => himp x (.tail _ hx))

/-- A field with scalars adds its count. -/
theorem fieldCounts_of_some {field : Nat × Nat} {n : Nat} (h : t.scalars? field.2 = some n)
    (fields : List (Nat × Nat)) :
    t.fieldCounts (field :: fields) = (t.fieldCounts fields).map (n :: ·) := by
  rw [fieldCounts, List.mapM_cons, h, ← fieldCounts]
  cases t.fieldCounts fields <;> rfl

/-- A field without a count leaves the record without one. -/
theorem fieldCounts_of_none {field : Nat × Nat} (h : t.scalars? field.2 = none)
    (fields : List (Nat × Nat)) : t.fieldCounts (field :: fields) = none := by
  rw [fieldCounts, List.mapM_cons, h]
  rfl

/-- The count of a node is the number of scalars it is laid out in, and a node that is not fully
bounded has no count. -/
theorem Sound.layout (ht : t.Sound) (id n : Nat) : t.scalars? id = some n ↔ t.Layout id n := by
  induction id using Nat.strongRecOn generalizing n with
  | ind id ih =>
    constructor
    · intro h
      cases hshape : t.shape? id with
      | none =>
        rw [scalars?] at h
        rw [shape?, Option.map_eq_none_iff] at hshape
        rw [hshape] at h
        cases h
      | some shape =>
        rw [ht.scalars_eq hshape] at h
        cases shape with
        | scalar storage literals units wkt => cases h; exact .scalar hshape
        | «alias» base range => exact .alias hshape ((ih base (ht.alias_lt hshape) n).1 h)
        | array element indices bounds =>
          cases bounds with
          | none => cases h
          | some bounds =>
            obtain ⟨dimensions, hdimensions, h⟩ := Option.bind_eq_some_iff.1 h
            unfold arrayCount at h
            split at h
            · next hnull => cases h; exact .null hshape hdimensions hnull
            · next hnull =>
              obtain ⟨m, hm, rfl⟩ := Option.map_eq_some_iff.1 h
              exact .array hshape hdimensions hnull
                ((ih element (ht.element_lt hshape) m).1 hm)
        | record fields =>
          obtain ⟨counts, hcounts, rfl⟩ := Option.map_eq_some_iff.1 h
          refine .record hshape (forall₂_imp_mem (mapM_eq_some_iff.1 hcounts) ?_)
          exact fun field hfield m => (ih field.2 (ht.field_lt hshape hfield) m).1
    · intro h
      cases h with
      | scalar hshape => rw [ht.scalars_eq hshape]; rfl
      | «alias» hshape hbase =>
        rw [ht.scalars_eq hshape]
        exact (ih _ (ht.alias_lt hshape) n).2 hbase
      | null hshape hdimensions hnull =>
        rw [ht.scalars_eq hshape, count, hdimensions, Option.bind_some, arrayCount, if_pos hnull]
      | array hshape hdimensions hnull helement =>
        rw [ht.scalars_eq hshape, count, hdimensions, Option.bind_some, arrayCount, if_neg hnull,
          (ih _ (ht.element_lt hshape) _).2 helement]
        rfl
      | @record _ fields counts hshape hall =>
        have hcounts : (t.fieldCounts fields) = some counts :=
          mapM_eq_some_iff.2 (forall₂_imp_mem hall fun field hfield m =>
            (ih field.2 (ht.field_lt hshape hfield) m).2)
        rw [ht.scalars_eq hshape, count, hcounts]
        rfl

end

/-! ## New nodes -/

/-- When the count of a shape overflows: an array of so many positions, or a record whose first
fields have so many scalars. -/
def Overflows (t : Types) : Shape → Prop
  | .array element _ (some bounds) => ∃ dimensions n, extents bounds = some dimensions ∧
      0 ∉ dimensions ∧ t.scalars? element = some n ∧ usizeMax < n * dimensions.prod
  | .record fields => ∃ k counts,
      t.fieldCounts (fields.take k) = some counts ∧ usizeMax < counts.sum
  | _ => False

/-- A dimension of a shape is real. -/
def RealIndex : Shape → Prop
  | .array _ _ (some bounds) => extents bounds = none
  | _ => False

/-- A product of positive numbers is at least each product of the first ones. -/
theorem foldlM_product {xs : List Nat} (hpos : 0 ∉ xs) (n : Nat) :
    (xs.foldlM (fun total x => if total * x < 2 ^ 128 then some (total * x) else none) n).filter
        (· ≤ usizeMax) =
      if n * xs.prod ≤ usizeMax then some (n * xs.prod) else none := by
  induction xs generalizing n with
  | nil =>
    rw [List.prod_nil, Nat.mul_one]
    exact (Option.filter_some).trans (by simp only [decide_eq_true_eq])
  | cons x xs ih =>
    rw [List.mem_cons, not_or] at hpos
    rw [List.foldlM_cons, List.prod_cons, ← Nat.mul_assoc]
    by_cases hlt : n * x < 2 ^ 128
    · rw [if_pos hlt]
      exact ih hpos.2 (n * x)
    · have hprod : 0 < xs.prod := List.prod_pos_iff_forall_pos_nat.2 fun y hy =>
        Nat.pos_of_ne_zero fun hzero => hpos.2 (hzero ▸ hy)
      have hle : n * x ≤ n * x * xs.prod := Nat.le_mul_of_pos_right _ hprod
      have hover : ¬ n * x * xs.prod ≤ usizeMax := by
        unfold usizeMax
        omega
      rw [if_neg hlt, if_neg hover]
      rfl

/-- The total of an array is the product, when it fits. -/
theorem arrayTotal_eq {xs : List Nat} (hpos : 0 ∉ xs) (n : Nat) :
    arrayTotal n xs = if n * xs.prod ≤ usizeMax then some (n * xs.prod) else none :=
  foldlM_product hpos n

/-- What reading the positions of some dimensions gives. -/
theorem forEach_extent (bounds : List Range) (w : Wire) :
    (∃ dimensions, extents bounds = some dimensions ∧
        Decoder.forEach Range.extent bounds w = (.ok dimensions, w)) ∨
      extents bounds = none ∧ ∃ e w', Decoder.forEach Range.extent bounds w = (.error e, w') := by
  induction bounds with
  | nil => exact .inl ⟨[], rfl, rfl⟩
  | cons range bounds ih =>
    unfold extents at ih ⊢
    rw [List.mapM_cons]
    unfold Decoder.forEach
    cases hends : range.integerBounds with
    | none =>
      have hextent : range.extent w = (.error (malformed "real array index range" w), w) := by
        unfold Range.extent; rw [hends]; rfl
      exact .inr ⟨rfl, _, _, Decoder.bind_of_error hextent⟩
    | some ends =>
      have hextent : range.extent w = (.ok (range.span ends), w) := by
        unfold Range.extent; rw [hends]; rfl
      rw [Decoder.bind_of_ok hextent]
      rcases ih with ⟨dimensions, hdimensions, hrun⟩ | ⟨hnone, e, w', hrun⟩
      · rw [hdimensions, Decoder.bind_of_ok hrun]
        exact .inl ⟨_, rfl, rfl⟩
      · rw [hnone, Decoder.bind_of_error hrun]
        exact .inr ⟨rfl, _, _, rfl⟩

section
variable {t : Types}

/-- A record with a field that has no count has none. -/
theorem addFields_none (t : Types) (fields : List (Nat × Nat)) (w : Wire) :
    t.addFields none fields w = (.ok none, w) := by
  induction fields with
  | nil => rfl
  | cons field fields ih =>
    unfold addFields
    have hfield : t.addField none field w = (.ok none, w) := rfl
    rw [Decoder.bind_of_ok hfield]
    exact ih

/-- The counts of the fields are added up, unless they overflow. -/
theorem addFields_eq (t : Types) (fields : List (Nat × Nat)) (a : Nat) (w : Wire)
    (ha : a ≤ usizeMax) :
    (∃ n, t.addFields (some a) fields w = (.ok n, w) ∧
        n = (t.fieldCounts fields).map (fun counts => a + counts.sum) ∧
        ∀ k counts, t.fieldCounts (fields.take k) = some counts →
          a + counts.sum ≤ usizeMax) ∨
      (∃ k counts, t.fieldCounts (fields.take k) = some counts ∧
          usizeMax < a + counts.sum) ∧
        ∃ e w', t.addFields (some a) fields w = (.error e, w') := by
  induction fields generalizing a with
  | nil =>
    refine .inl ⟨some a, rfl, rfl, fun k counts hcounts => ?_⟩
    rw [List.take_nil] at hcounts
    cases hcounts
    exact ha
  | cons field fields ih =>
    unfold addFields
    cases hfield : t.scalars? field.2 with
    | none =>
      have hadd : t.addField (some a) field w = (.ok none, w) := by
        unfold addField; rw [hfield]; rfl
      rw [Decoder.bind_of_ok hadd, addFields_none]
      refine .inl ⟨none, rfl, by rw [fieldCounts_of_none hfield]; rfl, fun k counts hcounts => ?_⟩
      cases k with
      | zero => cases hcounts; exact ha
      | succ k =>
        rw [List.take_succ_cons, fieldCounts_of_none hfield] at hcounts
        cases hcounts
    | some b =>
      by_cases hfits : a + b ≤ usizeMax
      · have hadd : t.addField (some a) field w = (.ok (some (a + b)), w) := by
          unfold addField
          rw [hfield]
          dsimp only
          rw [decide_eq_true hfits]
          rfl
        rw [Decoder.bind_of_ok hadd]
        have hcons : ∀ counts : List Nat, a + (b :: counts).sum = a + b + counts.sum := by
          intro counts
          rw [List.sum_cons, Nat.add_assoc]
        rcases ih (a + b) hfits with ⟨n, hrun, rfl, hall⟩ | ⟨⟨k, counts, hcounts, hover⟩, herror⟩
        · refine .inl ⟨_, hrun, ?_, fun k counts hcounts => ?_⟩
          · rw [fieldCounts_of_some hfield]
            cases t.fieldCounts fields with
            | none => rfl
            | some counts => exact congrArg some (hcons counts).symm
          · cases k with
            | zero => cases hcounts; exact ha
            | succ k =>
              rw [List.take_succ_cons, fieldCounts_of_some hfield] at hcounts
              obtain ⟨counts', hcounts', rfl⟩ := Option.map_eq_some_iff.1 hcounts
              rw [hcons]
              exact hall k counts' hcounts'
        · refine .inr ⟨⟨k + 1, b :: counts, ?_, by rw [hcons]; exact hover⟩, herror⟩
          rw [List.take_succ_cons, fieldCounts_of_some hfield, hcounts]
          rfl
      · have hadd : t.addField (some a) field w =
            (.error (malformed "record scalar count overflow" w), w) := by
          unfold addField
          rw [hfield]
          dsimp only
          rw [decide_eq_false hfits]
          rfl
        rw [Decoder.bind_of_error hadd]
        refine .inr ⟨⟨1, [b], ?_, ?_⟩, _, _, rfl⟩
        · rw [List.take_succ_cons, List.take_zero, fieldCounts_of_some hfield]; rfl
        · rw [List.sum_singleton]; omega

/-- What computing the count of a shape gives: the count, or an error when it overflows or a
dimension is real. -/
def Counted (t : Types) (shape : Shape) (w : Wire) : Prop :=
  (t.countScalars shape w = (.ok (t.count shape), w) ∧ ¬ t.Overflows shape ∧ ¬ RealIndex shape ∧
      ∀ n, t.count shape = some n → n ≤ usizeMax) ∨
    (t.Overflows shape ∨ RealIndex shape) ∧ ∃ e w', t.countScalars shape w = (.error e, w')

/-- Counting the scalars of a bounded array gives what the layout has, or fails. -/
theorem countScalars_array (t : Types) (element : Nat) (indices : List Nat) (bounds : List Range)
    (w : Wire) : t.Counted (.array element indices (some bounds)) w := by
  rcases forEach_extent bounds w with ⟨dimensions, hdimensions, hrun⟩ | ⟨hnone, e, w', hrun⟩
  · have hreal : ¬ RealIndex (.array element indices (some bounds)) := by
      intro h
      have h' : extents bounds = none := h
      rw [hdimensions] at h'
      cases h'
    have hcount : t.count (.array element indices (some bounds)) =
        arrayCount (t.scalars? element) dimensions := by
      rw [count, hdimensions]; rfl
    have hcompute : t.countScalars (.array element indices (some bounds)) w = _ :=
      Decoder.bind_of_ok hrun
    have hover : t.Overflows (.array element indices (some bounds)) → 0 ∉ dimensions ∧
        ∃ n, t.scalars? element = some n ∧ usizeMax < n * dimensions.prod := by
      rintro ⟨dimensions', n, hd, hnot, hn, hlt⟩
      rw [hdimensions] at hd
      cases hd
      exact ⟨hnot, n, hn, hlt⟩
    unfold arrayCount at hcount
    by_cases hnull : 0 ∈ dimensions
    · rw [if_pos hnull] at hcount hcompute
      refine .inl ⟨by rw [hcompute, hcount]; rfl, fun h => (hover h).1 hnull, hreal, fun n hn => ?_⟩
      rw [hcount] at hn
      cases hn
      exact Nat.zero_le _
    rw [if_neg hnull] at hcount hcompute
    cases helement : t.scalars? element with
    | none =>
      rw [helement] at hcount hcompute
      refine .inl ⟨by rw [hcompute, hcount]; rfl, fun h => ?_, hreal, fun n hn => ?_⟩
      · obtain ⟨-, n, hn, -⟩ := hover h
        rw [helement] at hn
        cases hn
      · rw [hcount] at hn
        cases hn
    | some n =>
      rw [helement] at hcount hcompute
      dsimp only at hcompute
      rw [arrayTotal_eq hnull] at hcompute
      by_cases hle : n * dimensions.prod ≤ usizeMax
      · rw [if_pos hle] at hcompute
        refine .inl ⟨by rw [hcompute, hcount]; rfl, fun h => ?_, hreal, fun m hm => ?_⟩
        · obtain ⟨-, m, hm, hlt⟩ := hover h
          rw [helement] at hm
          cases hm
          omega
        · rw [hcount] at hm
          cases hm
          exact hle
      · rw [if_neg hle] at hcompute
        exact .inr ⟨.inl ⟨dimensions, n, hdimensions, hnull, helement, by omega⟩, _, _, hcompute⟩
  · exact .inr ⟨.inr hnone, _, _, Decoder.bind_of_error hrun⟩

/-- Counting the scalars of a record gives what its fields have, or fails. -/
theorem countScalars_record (t : Types) (fields : List (Nat × Nat)) (w : Wire) :
    t.Counted (.record fields) w := by
  have hzero : (t.fieldCounts fields).map (fun counts => 0 + counts.sum) =
      t.count (.record fields) :=
    congrArg (fun f => Option.map f _) (funext fun counts => Nat.zero_add _)
  rcases t.addFields_eq fields 0 w (Nat.zero_le _) with
    ⟨n, hrun, rfl, hall⟩ | ⟨⟨k, counts, hcounts, hover⟩, e, w', herror⟩
  · rw [hzero] at hrun
    refine .inl ⟨hrun, ?_, id, fun n hn => ?_⟩
    · rintro ⟨k, counts, hcounts, hover⟩
      have := hall k counts hcounts
      omega
    · obtain ⟨counts, hcounts, rfl⟩ := Option.map_eq_some_iff.1 hn
      have := hall fields.length counts (by rw [List.take_length]; exact hcounts)
      omega
  · rw [Nat.zero_add] at hover
    exact .inr ⟨.inl ⟨k, counts, hcounts, hover⟩, e, w', herror⟩

/-- The count of a shape is computed, unless it overflows or a dimension is real. -/
theorem countScalars_eq (hfits : ∀ id n, t.scalars? id = some n → n ≤ usizeMax) (shape : Shape)
    (w : Wire) : t.Counted shape w := by
  cases shape with
  | scalar storage literals units wkt =>
    exact .inl ⟨rfl, id, id, fun n hn => by cases hn; exact Nat.le_of_ble_eq_true rfl⟩
  | «alias» base range => exact .inl ⟨rfl, id, id, fun n hn => hfits base n hn⟩
  | array element indices bounds =>
    cases bounds with
    | none => exact .inl ⟨rfl, id, id, nofun⟩
    | some bounds => exact t.countScalars_array element indices bounds w
  | record fields => exact t.countScalars_record fields w

/-- The counts of a sound table fit. -/
theorem Sound.fits (ht : t.Sound) {id n : Nat} (h : t.scalars? id = some n) : n ≤ usizeMax := by
  obtain ⟨node, hnode, hn⟩ := Option.bind_eq_some_iff.1 h
  exact (ht.nodes id node hnode).fits n hn

end

end Types

end Ondas.Ghw
