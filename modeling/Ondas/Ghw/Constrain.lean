import Ondas.Ghw.Layout

/-!
# Constrained composites and the reading of the type table

`Types.constrain` works through a stack of frames. Working off the frame that starts a node takes no
more turns than `Types.turns` counts, keeps the table sound, and ends with a bounded copy of the
node (`start_reaches`), by induction on how deep the node can be; the fields of a record are an
inner induction (`record_reaches`). Every entry that is read keeps the table sound then, so an
accepted table is (`read_wellFounded`).
-/

namespace Ondas.Ghw.Types

open Library Wire

/-! ## Longer tables -/

/-- A table with more nodes. -/
structure Extends (t t' : Types) : Prop where
  strings : t'.strings = t.strings
  sourceIds : t'.sourceIds = t.sourceIds
  nodes : t.nodes <+: t'.nodes

section
variable {t t' t'' : Types} {id : Nat}

theorem Extends.refl (t : Types) : t.Extends t := ⟨rfl, rfl, List.prefix_rfl⟩

theorem Extends.trans (h : t.Extends t') (h' : t'.Extends t'') : t.Extends t'' :=
  ⟨h'.strings.trans h.strings, h'.sourceIds.trans h.sourceIds, h.nodes.trans h'.nodes⟩

theorem Extends.length_le (h : t.Extends t') : t.nodes.length ≤ t'.nodes.length :=
  h.nodes.length_le

/-- The nodes of a table stay. -/
theorem Extends.node (h : t.Extends t') (hid : id < t.nodes.length) :
    t'.nodes[id]? = t.nodes[id]? := by
  obtain ⟨more, hmore⟩ := h.nodes
  rw [← hmore, List.getElem?_append_left hid]

theorem Extends.shape? (h : t.Extends t') (hid : id < t.nodes.length) :
    t'.shape? id = t.shape? id := by
  rw [Types.shape?, h.node hid, Types.shape?]

theorem Extends.scalars? (h : t.Extends t') (hid : id < t.nodes.length) :
    t'.scalars? id = t.scalars? id := by
  rw [Types.scalars?, h.node hid, Types.scalars?]

/-- What a node stands for does not change when nodes are appended. The induction is on the node,
whose alias points below it. -/
theorem Extends.effective (h : t.Extends t') (ht : t.Sound) (ht' : t'.Sound)
    (hid : id < t.nodes.length) : t'.effective id = t.effective id := by
  induction id using Nat.strongRecOn with
  | ind id ih =>
    rw [ht.effective_eq id, ht'.effective_eq id, h.shape? hid]
    split
    · next base range hshape =>
      have hlt := ht.alias_lt hshape
      exact ih base hlt (hlt.trans hid)
    · rfl

/-- A count depends on the nodes that a shape points to. -/
theorem count_congr {shape : Shape} (h : ∀ ref ∈ shape.refs, t'.scalars? ref = t.scalars? ref) :
    t'.count shape = t.count shape := by
  cases shape with
  | scalar => rfl
  | «alias» base range => exact h base (.head _)
  | array element indices bounds =>
    cases bounds with
    | none => rfl
    | some bounds => rw [count, count, h element (.head _)]
  | record fields =>
    have hfields : ∀ fields' : List (Nat × Nat), (∀ field ∈ fields', field ∈ fields) →
        t'.fieldCounts fields' = t.fieldCounts fields' := by
      intro fields' hsub
      induction fields' with
      | nil => rfl
      | cons field fields' ih =>
        have hfield := h field.2 (List.mem_map_of_mem (hsub field (.head _)))
        have hrest := ih fun field' hfield' => hsub field' (.tail _ hfield')
        rw [fieldCounts] at hrest ⊢
        rw [List.mapM_cons, hfield, hrest, fieldCounts, fieldCounts, List.mapM_cons]
    rw [count, count, hfields fields fun _ h => h]

/-- A node that can be added to a table. -/
structure NewNode (t : Types) (name : Nat) (base : Option Nat) (shape : Shape) : Prop where
  refs : ∀ ref ∈ base.toList ++ shape.refs, ref < t.nodes.length
  texts : ∀ text ∈ name :: shape.texts, text < t.strings.length
  bounded : shape.Bounded

/-- A new node keeps the table sound. -/
theorem Sound.push (ht : t.Sound) {name : Nat} {base : Option Nat} {shape : Shape}
    (hnew : t.NewNode name base shape) :
    Decoder.Ensures (fun r : Types × Nat => r.1.Sound ∧ t.Extends r.1 ∧ r.2 = t.nodes.length ∧
      r.1.nodes[r.2]? = some ⟨name, base, shape, t.count shape⟩ ∧ ¬ RealIndex shape)
      (t.push name base shape) := by
  intro w r w' hrun
  obtain ⟨n, v, hcount, hpure⟩ := Decoder.bind_eq_ok.1 hrun
  cases hpure
  rcases t.countScalars_eq (fun id n => ht.fits) shape w with
    ⟨hok, -, hreal, hfits⟩ | ⟨-, e, v', herror⟩
  swap
  · rw [herror] at hcount; cases hcount
  rw [hok] at hcount
  cases hcount
  have hext : t.Extends { t with nodes := t.nodes ++ [⟨name, base, shape, t.count shape⟩] } :=
    ⟨rfl, rfl, List.prefix_append _ _⟩
  refine ⟨⟨fun id node hnode => ?_, fun id hid => ?_⟩, hext, rfl, List.getElem?_concat_length,
    hreal⟩
  · have hsame : ∀ ref, ref < t.nodes.length → _ := fun _ href => hext.scalars? href
    by_cases hid : id < t.nodes.length
    · rw [hext.node hid] at hnode
      obtain ⟨hrefs, htexts, hbounded, hcount, hfits⟩ := ht.nodes id node hnode
      refine ⟨hrefs, htexts, hbounded, hcount.trans (count_congr fun ref href => ?_).symm, hfits⟩
      exact hsame ref ((hrefs ref (List.mem_append_right _ href)).trans hid)
    · obtain rfl : id = t.nodes.length := by
        have := (List.getElem?_eq_some_iff.1 hnode).1
        rw [List.length_append, List.length_singleton] at this
        omega
      rw [List.getElem?_concat_length] at hnode
      cases hnode
      exact ⟨hnew.refs, hnew.texts, hnew.bounded, (count_congr fun ref href =>
        hsame ref (hnew.refs ref (List.mem_append_right _ href))).symm, hfits⟩
  · have := ht.sourceIds id hid
    rw [List.length_append]
    omega

end

/-! ## Bounded copies -/

/-- A node is bounded when it has a count. -/
def IsBounded (t : Types) (id : Nat) : Prop := (t.scalars? id).isSome

/-- A node is a copy of another one with all the bounds that it lacks: the node itself, or an array
of a copy of its element with the same index types, or a record of copies of its fields. -/
inductive Constrained (t : Types) : Nat → Nat → Prop
  | kept {id : Nat} : t.IsBounded id → Constrained t id id
  | array {id node element element' : Nat} {indices : List Nat} {bounds : Option (List Range)}
      {bounds' : List Range} : t.shape? (t.effective id) = some (.array element indices bounds) →
      t.shape? node = some (.array element' indices (some bounds')) →
      Constrained t element element' → Constrained t id node
  | record {id node : Nat} {fields fields' : List (Nat × Nat)} :
      t.shape? (t.effective id) = some (.record fields) → t.shape? node = some (.record fields') →
      fields'.map Prod.fst = fields.map Prod.fst →
      List.Forall₂ (fun field field' => Constrained t field.2 field'.2) fields fields' →
      Constrained t id node

section
variable {t t' : Types} {id node : Nat}

/-- A bounded copy stays one in a longer table. -/
theorem Constrained.extends (ht : t.Sound) (ht' : t'.Sound) (hext : t.Extends t') {id node : Nat}
    (h : t.Constrained id node) (hid : id < t.nodes.length) : t'.Constrained id node := by
  induction id using Nat.strongRecOn generalizing node with
  | ind id ih =>
    have heffective := hext.effective ht ht' hid
    have hshape : ∀ {shape : Shape}, t.shape? (t.effective id) = some shape →
        t'.shape? (t'.effective id) = some shape := fun hs => by
      rw [heffective, hext.shape? ((ht.effective_le id).trans_lt hid), hs]
    have hlt : ∀ {shape : Shape}, t.shape? (t.effective id) = some shape →
        ∀ ref ∈ shape.refs, ref < id := fun hs ref href =>
      (ht.refs_lt hs ref href).trans_le (ht.effective_le id)
    cases h with
    | kept hbounded => exact .kept (by rw [IsBounded, hext.scalars? hid]; exact hbounded)
    | array hold hnew helement =>
      have := hlt hold _ (.head _)
      exact .array (hshape hold) (by rw [hext.shape? (lt_of_shape? hnew)]; exact hnew)
        (ih _ this helement (this.trans hid))
    | record hold hnew hnames hfields =>
      refine .record (hshape hold) (by rw [hext.shape? (lt_of_shape? hnew)]; exact hnew) hnames
        (forall₂_imp_mem hfields fun field hfield field' hcopy => ?_)
      have := hlt hold _ (List.mem_map_of_mem hfield)
      exact ih _ this hcopy (this.trans hid)

/-! ## The loop of the work stack -/

/-- The loop gets to a state within some turns, or fails. -/
def Reaches (k : Nat) (c : Constraining) (w : Wire) (P : Constraining → Prop) : Prop :=
  ∃ j ≤ k, ∀ c' w', constrainLoop j c w = (.ok c', w') → P c'

/-- The turns of the loop one after the other. -/
theorem constrainLoop_add (j i : Nat) (c : Constraining) (w : Wire) :
    constrainLoop (j + i) c w = (constrainLoop j c >>= constrainLoop i) w := by
  induction j generalizing c w with
  | zero => rw [Nat.zero_add]; rfl
  | succ j ih =>
    rw [Nat.succ_add]
    unfold constrainLoop
    cases hwork : c.work with
    | nil =>
      cases i with
      | zero => rfl
      | succ i =>
        show (pure c : Read Constraining) w = constrainLoop (i + 1) c w
        unfold constrainLoop
        rw [hwork]
    | cons frame work =>
      dsimp only
      rcases hturn : ({ c with work := work } : Constraining).turn frame w with ⟨e | c', w'⟩
      · have hfirst := Decoder.bind_of_error (f := constrainLoop j) hturn
        rw [Decoder.bind_of_error hturn, Decoder.bind_of_error hfirst]
      · rw [Decoder.bind_of_ok hturn, ih]
        rcases hrest : constrainLoop j c' w' with ⟨e | c'', w''⟩
        · rw [Decoder.bind_of_error hrest,
            Decoder.bind_of_error ((Decoder.bind_of_ok hturn).trans hrest)]
        · rw [Decoder.bind_of_ok hrest,
            Decoder.bind_of_ok ((Decoder.bind_of_ok hturn).trans hrest)]

variable {k m : Nat} {c : Constraining} {w : Wire} {P Q : Constraining → Prop}

theorem Reaches.done (h : P c) : Reaches k c w P :=
  ⟨0, Nat.zero_le _, fun c' w' hrun => by cases hrun; exact h⟩

theorem Reaches.mono (h : Reaches k c w P) (hk : k ≤ m) : Reaches m c w P := by
  obtain ⟨j, hj, hP⟩ := h
  exact ⟨j, hj.trans hk, hP⟩

/-- Runs of the constrainer compose, and their turns add up. -/
theorem Reaches.trans (h : Reaches k c w P) (hnext : ∀ c' w', P c' → Reaches m c' w' Q) :
    Reaches (k + m) c w Q := by
  obtain ⟨j, hj, hP⟩ := h
  rcases hrun : constrainLoop j c w with ⟨e | c', w'⟩
  · refine ⟨j, by omega, fun c'' w'' hrun' => ?_⟩
    rw [hrun] at hrun'
    cases hrun'
  · obtain ⟨i, hi, hQ⟩ := hnext c' w' (hP c' w' hrun)
    refine ⟨j + i, by omega, fun c'' w'' hrun' => hQ c'' w'' ?_⟩
    rwa [constrainLoop_add, Decoder.bind_of_ok hrun] at hrun'

/-- A turn takes the last frame of the work. -/
theorem Reaches.turn {frame : Frame} {work : List Frame} (hwork : c.work = frame :: work)
    (hnext : ∀ c' w', ({ c with work := work } : Constraining).turn frame w = (.ok c', w') →
      Reaches k c' w' P) : Reaches (1 + k) c w P := by
  have hloop : ∀ fuel, constrainLoop (fuel + 1) c w =
      (({ c with work := work } : Constraining).turn frame >>= constrainLoop fuel) w := by
    intro fuel
    rw [constrainLoop, hwork]
  rcases hturn : ({ c with work := work } : Constraining).turn frame w with ⟨e | c', w'⟩
  · refine ⟨1, by omega, fun c'' w'' hrun => ?_⟩
    rw [hloop, Decoder.bind_of_error hturn] at hrun
    cases hrun
  · obtain ⟨j, hj, hP⟩ := hnext c' w' hturn
    refine ⟨j + 1, by omega, fun c'' w'' hrun => hP c'' w'' ?_⟩
    rwa [hloop, Decoder.bind_of_ok hturn] at hrun

/-- Once the work is done, more turns change nothing. -/
theorem Reaches.enough (h : Reaches k c w fun c' => c'.work = [] ∧ P c') {fuel : Nat}
    (hfuel : k ≤ fuel) : constrainLoop fuel c w = constrainLoop k c w ∧
      ∀ c' w', constrainLoop k c w = (.ok c', w') → c'.work = [] ∧ P c' := by
  obtain ⟨j, hj, hP⟩ := h
  have hsame : ∀ i, constrainLoop (j + i) c w = constrainLoop j c w := by
    intro i
    rw [constrainLoop_add]
    rcases hrun : constrainLoop j c w with ⟨e | c', w'⟩
    · rw [Decoder.bind_of_error hrun]
    · rw [Decoder.bind_of_ok hrun]
      cases i with
      | zero => rfl
      | succ i => rw [constrainLoop, (hP c' w' hrun).1]; rfl
  have hmore := hsame (k - j)
  have hfuel' := hsame (fuel - j)
  rw [Nat.add_sub_cancel' hj] at hmore
  rw [Nat.add_sub_cancel' (hj.trans hfuel)] at hfuel'
  exact ⟨hfuel'.trans hmore.symm, fun c' w' hrun => hP c' w' (hmore ▸ hrun)⟩

end

/-! ## Frames -/

/-- A frame that starts a node is worked off: the rest of the work is left, and the result is a new
bounded copy of the node. -/
structure Finished (t : Types) (id : Nat) (rest : List Frame) (c : Constraining) : Prop where
  work : c.work = rest
  sound : c.types.Sound
  longer : t.Extends c.types
  result : ∃ node, c.result = some node ∧ t.nodes.length ≤ node ∧ c.types.Constrained id node ∧
    c.types.IsBounded node

section
variable {c c' : Constraining} {base : Nat} {w w' : Wire}

/-- The bounds that are read are one for each index. -/
theorem readBounds_ensures (t : Types) (indices : List Nat) :
    Decoder.Ensures (fun bounds : List Range => bounds.length = indices.length)
      (t.readBounds indices) := by
  have hall : Decoder.Ensures (List.Forall₂ (fun _ _ => True) indices) (t.readBounds indices) :=
    .forEach fun index _ => .trivial _
  exact hall.mono fun bounds h => h.length_eq.symm

/-- Adding a bounded array finishes its frame. -/
theorem finish_array (hc : c.types.Sound) (hstrings : 0 < c.types.strings.length)
    {element element' : Nat} {indices : List Nat} {old : Option (List Range)} {bounds : List Range}
    (hbase : base < c.types.nodes.length)
    (hold : c.types.shape? (c.types.effective base) = some (.array element indices old))
    (hlength : bounds.length = indices.length) (helement' : element' < c.types.nodes.length)
    (hcopy : c.types.Constrained element element') (hbounded : c.types.IsBounded element')
    (hrun : c.finish base (.array element' indices (some bounds)) w = (.ok c', w')) :
    Finished c.types base c.work c' := by
  have heffective := (hc.effective_le base).trans_lt hbase
  have hnew : c.types.NewNode 0 (some base) (.array element' indices (some bounds)) := by
    refine ⟨fun ref href => ?_, fun text htext => ?_, hlength⟩
    · rcases List.mem_cons.1 href with rfl | href
      · exact hbase
      rcases List.mem_cons.1 href with rfl | href
      · exact helement'
      · exact (hc.refs_lt hold ref (.tail _ href)).trans heffective
    · obtain rfl := List.mem_singleton.1 htext
      exact hstrings
  obtain ⟨⟨types, node⟩, v, hpush, hpure⟩ := Decoder.bind_eq_ok.1 hrun
  cases hpure
  obtain ⟨hsound, hext, rfl, hnode, hreal⟩ : types.Sound ∧ c.types.Extends types ∧
    node = c.types.nodes.length ∧ _ ∧ _ := hc.push hnew w _ _ hpush
  have hshape : types.shape? c.types.nodes.length = some (.array element' indices (some bounds)) :=
    shape?_eq_some.2 ⟨_, hnode, rfl⟩
  have hold' : types.shape? (types.effective base) = some (.array element indices old) := by
    rw [hext.effective hc hsound hbase, hext.shape? heffective, hold]
  refine ⟨rfl, hsound, hext, _, rfl, le_rfl, .array hold' hshape ?_, ?_⟩
  · have hlt := (hc.element_lt hold).trans heffective
    exact hcopy.extends hc hsound hext hlt
  · have hscalars : types.scalars? element' = c.types.scalars? element' := hext.scalars? helement'
    obtain ⟨n, hn⟩ := Option.isSome_iff_exists.1 hbounded
    obtain ⟨dimensions, hdimensions⟩ := Option.ne_none_iff_exists'.1 hreal
    rw [IsBounded, hsound.scalars_eq hshape, count, hscalars, hn, hdimensions, Option.bind_some,
      arrayCount]
    split <;> rfl

/-- The fields of a record while its frame is worked off: the first ones are copied, the others are
those of the record. -/
structure Copied (t : Types) (next : Nat) (fields fields' : List (Nat × Nat)) : Prop where
  length : fields'.length = fields.length
  names : fields'.map Prod.fst = fields.map Prod.fst
  copied : ∀ i field field', i < next → fields[i]? = some field → fields'[i]? = some field' →
    t.Constrained field.2 field'.2 ∧ t.IsBounded field'.2 ∧ field'.2 < t.nodes.length
  left : ∀ i, next ≤ i → fields'[i]? = fields[i]?

/-- Adding a bounded record finishes its frame. -/
theorem finish_record (hc : c.types.Sound) (hstrings : 0 < c.types.strings.length)
    {fields fields' : List (Nat × Nat)} (hbase : base < c.types.nodes.length)
    (hold : c.types.shape? (c.types.effective base) = some (.record fields))
    (hcopied : c.types.Copied fields.length fields fields')
    (hrun : c.finish base (.record fields') w = (.ok c', w')) :
    Finished c.types base c.work c' := by
  have heffective := (hc.effective_le base).trans_lt hbase
  have hfield : List.Forall₂ (fun field field' => c.types.Constrained field.2 field'.2 ∧
      c.types.IsBounded field'.2 ∧ field'.2 < c.types.nodes.length) fields fields' := by
    refine List.forall₂_iff_get.2 ⟨hcopied.length.symm, fun i hi hi' => ?_⟩
    exact hcopied.copied i _ _ hi (List.getElem?_eq_getElem hi) (List.getElem?_eq_getElem hi')
  have hnew : c.types.NewNode 0 (some base) (.record fields') := by
    refine ⟨fun ref href => ?_, fun text htext => ?_, trivial⟩
    · rcases List.mem_cons.1 href with rfl | href
      · exact hbase
      · obtain ⟨field', hfield', rfl⟩ := List.mem_map.1 href
        obtain ⟨i, hi⟩ := List.mem_iff_getElem?.1 hfield'
        have hlt := (List.getElem?_eq_some_iff.1 hi).1
        rw [hcopied.length] at hlt
        exact (hcopied.copied i _ field' hlt (List.getElem?_eq_getElem hlt) hi).2.2
    · rcases List.mem_cons.1 htext with rfl | htext
      · exact hstrings
      · have htexts : text ∈ fields.map Prod.fst := hcopied.names ▸ htext
        obtain ⟨node, hnode, hshape⟩ := shape?_eq_some.1 hold
        refine (hc.nodes _ node hnode).texts text (.tail _ ?_)
        rw [hshape]
        exact htexts
  obtain ⟨⟨types, node⟩, v, hpush, hpure⟩ := Decoder.bind_eq_ok.1 hrun
  cases hpure
  obtain ⟨hsound, hext, rfl, hnode, -⟩ : types.Sound ∧ c.types.Extends types ∧
    node = c.types.nodes.length ∧ _ ∧ _ := hc.push hnew w _ _ hpush
  have hshape : types.shape? c.types.nodes.length = some (.record fields') :=
    shape?_eq_some.2 ⟨_, hnode, rfl⟩
  have hold' : types.shape? (types.effective base) = some (.record fields) := by
    rw [hext.effective hc hsound hbase, hext.shape? heffective, hold]
  refine ⟨rfl, hsound, hext, _, rfl, le_rfl, .record hold' hshape hcopied.names ?_, ?_⟩
  · refine forall₂_imp_mem hfield fun field hmem field' h => ?_
    exact h.1.extends hc hsound hext ((hc.field_lt hold hmem).trans heffective)
  · have hcounts : ∀ fields' : List (Nat × Nat), (∀ field' ∈ fields', c.types.IsBounded field'.2 ∧
        field'.2 < c.types.nodes.length) → (types.fieldCounts fields').isSome := by
      intro fields' hall
      induction fields' with
      | nil => rfl
      | cons field' fields' ih =>
        obtain ⟨hbounded, hlt⟩ := hall field' (.head _)
        obtain ⟨n, hn⟩ := Option.isSome_iff_exists.1 hbounded
        have hn' : types.scalars? field'.2 = some n := (hext.scalars? hlt).trans hn
        rw [fieldCounts_of_some hn', Option.isSome_map]
        exact ih fun field' hfield' => hall field' (.tail _ hfield')
    rw [IsBounded, hsound.scalars_eq hshape, count, Option.isSome_map]
    refine hcounts fields' fun field' hfield' => ?_
    obtain ⟨i, hi⟩ := List.mem_iff_getElem?.1 hfield'
    have hlt := (List.getElem?_eq_some_iff.1 hi).1
    rw [hcopied.length] at hlt
    exact (hcopied.copied i _ field' hlt (List.getElem?_eq_getElem hlt) hi).2

/-- What was worked off in a longer table was worked off. -/
theorem Finished.of_extends {t t' : Types} {id : Nat} {rest : List Frame} (hext : t.Extends t')
    (h : Finished t' id rest c) : Finished t id rest c := by
  obtain ⟨node, hresult, hnew, hcopy⟩ := h.result
  exact ⟨h.work, h.sound, hext.trans h.longer, node, hresult, hext.length_le.trans hnew, hcopy⟩

/-- A sound table with a node has a string. -/
theorem Sound.strings_pos {t : Types} (ht : t.Sound) {id : Nat} (hid : id < t.nodes.length) :
    0 < t.strings.length := by
  obtain ⟨node, hnode⟩ := exists_node hid
  exact Nat.zero_lt_of_lt ((ht.nodes id node hnode).texts node.name (.head _))

/-- The fields before the first one without a count are bounded. -/
theorem firstUnbounded_bounded (t : Types) (fields : List (Nat × Nat)) (next : Nat) {i : Nat}
    (hi : next ≤ i) (hlt : i < t.firstUnbounded fields next) :
    ∃ field, fields[i]? = some field ∧ t.IsBounded field.2 := by
  let p : Nat × Nat → Bool := fun field => (t.scalars? field.2).isSome
  have hlt' : i < next + ((fields.drop next).takeWhile p).length := hlt
  have hindex : i - next < ((fields.drop next).takeWhile p).length := by omega
  have hbounded : p _ = true := List.mem_takeWhile_imp (List.getElem_mem hindex)
  refine ⟨_, ?_, hbounded⟩
  obtain ⟨more, hmore⟩ : (fields.drop next).takeWhile p <+: fields.drop next :=
    List.takeWhile_prefix p
  have hget : (fields.drop next)[i - next]? = some ((fields.drop next).takeWhile p)[i - next] := by
    have hleft : ((fields.drop next).takeWhile p ++ more)[i - next]? =
        ((fields.drop next).takeWhile p)[i - next]? := List.getElem?_append_left hindex
    rw [hmore] at hleft
    rw [hleft, List.getElem?_eq_getElem hindex]
  rwa [List.getElem?_drop, Nat.add_sub_cancel' hi] at hget

/-- Copies stay copies in a longer table. -/
theorem Copied.extends {t t' : Types} {next : Nat} {fields fields' : List (Nat × Nat)}
    (h : t.Copied next fields fields') (ht : t.Sound) (ht' : t'.Sound) (hext : t.Extends t')
    (hfields : ∀ field ∈ fields, field.2 < t.nodes.length) : t'.Copied next fields fields' := by
  refine ⟨h.length, h.names, fun i field field' hi hfield hfield' => ?_, h.left⟩
  obtain ⟨hcopy, hbounded, hlt⟩ := h.copied i field field' hi hfield hfield'
  refine ⟨hcopy.extends ht ht' hext (hfields field (List.mem_of_getElem? hfield)), ?_,
    hlt.trans_le hext.length_le⟩
  rw [IsBounded, hext.scalars? hlt]
  exact hbounded

/-- The bounded fields that come next are copies of themselves. -/
theorem Copied.bounded {t : Types} {next : Nat} {fields fields' : List (Nat × Nat)}
    (h : t.Copied next fields fields') (hfields : ∀ field ∈ fields, field.2 < t.nodes.length) :
    t.Copied (t.firstUnbounded fields' next) fields fields' := by
  have hle : next ≤ t.firstUnbounded fields' next := Nat.le_add_right _ _
  refine ⟨h.length, h.names, fun i field field' hi hfield hfield' => ?_,
    fun i hi => h.left i (hle.trans hi)⟩
  by_cases hlt : i < next
  · exact h.copied i field field' hlt hfield hfield'
  · obtain ⟨field'', hfield'', hbounded⟩ :=
      t.firstUnbounded_bounded fields' next (Nat.not_lt.1 hlt) hi
    rw [hfield'] at hfield''
    cases hfield''
    rw [h.left i (Nat.not_lt.1 hlt), hfield] at hfield'
    cases hfield'
    exact ⟨.kept hbounded, hbounded, hfields field (List.mem_of_getElem? hfield)⟩

/-- A copied child takes the place of its field. -/
theorem Copied.child {t : Types} {next node : Nat} {fields fields' : List (Nat × Nat)}
    {field : Nat × Nat} (h : t.Copied next fields fields') (hfield : fields[next]? = some field)
    (hcopy : t.Constrained field.2 node) (hbounded : t.IsBounded node)
    (hnode : node < t.nodes.length) :
    t.Copied (next + 1) fields (takeChild fields' (next + 1) (some node)) := by
  have htake : takeChild fields' (next + 1) (some node) =
      fields'.modify next fun field => (field.1, node) := rfl
  rw [htake]
  have hget : ∀ i, (fields'.modify next fun field => (field.1, node))[i]? =
      if next = i then (fields'[i]?).map fun field => (field.1, node) else fields'[i]? := by
    intro i
    rw [List.getElem?_modify]
    split <;> cases fields'[i]? <;> rfl
  refine ⟨by rw [List.length_modify]; exact h.length, ?_, fun i f f' hi hf hf' => ?_,
    fun i hi => ?_⟩
  · rw [← h.names]
    refine List.ext_getElem? fun i => ?_
    rw [List.getElem?_map, hget, List.getElem?_map]
    split
    · cases fields'[i]? <;> rfl
    · rfl
  · rw [hget] at hf'
    split at hf'
    · next heq =>
      subst heq
      obtain ⟨g, -, rfl⟩ := Option.map_eq_some_iff.1 hf'
      rw [hfield] at hf
      cases hf
      exact ⟨hcopy, hbounded, hnode⟩
    · next hne => exact h.copied i f f' (by omega) hf hf'
  · rw [hget, if_neg (by omega)]
    exact h.left i (by omega)

end

/-! ## Working off a node -/

/-- The turns for the fields of a record from one on. -/
def fieldTurns (t : Types) (depth next : Nat) (fields : List (Nat × Nat)) : Nat :=
  ((fields.drop next).map fun field => 1 + t.turns depth field.2).sum

/-- The turns of a field that comes later are part of those from an earlier field on. -/
theorem fieldTurns_child (t : Types) (depth : Nat) {next later : Nat} {fields : List (Nat × Nat)}
    {field : Nat × Nat} (hle : next ≤ later) (hfield : fields[later]? = some field) :
    1 + t.turns depth field.2 + t.fieldTurns depth (later + 1) fields ≤
      t.fieldTurns depth next fields := by
  obtain ⟨hlt, hget⟩ := List.getElem?_eq_some_iff.1 hfield
  have hsplit : fields.drop next = (fields.drop next).take (later - next) ++ fields.drop later := by
    conv_lhs => rw [← List.take_append_drop (later - next) (fields.drop next)]
    rw [List.drop_drop, Nat.add_sub_cancel' hle]
  unfold fieldTurns
  rw [hsplit, List.drop_eq_getElem_cons hlt, hget, List.map_append, List.sum_append, List.map_cons,
    List.sum_cons]
  omega

section
variable {t : Types} {depth : Nat}

/-- The frame of a record is worked off when those of its fields are. The induction is on the fields
that are left. -/
theorem record_reaches (ht : t.Sound) {base : Nat} {rest : List Frame} {fields : List (Nat × Nat)}
    (hbase : base < t.nodes.length) (hold : t.shape? (t.effective base) = some (.record fields))
    (hstart : ∀ field ∈ fields, ∀ (c : Constraining) (w : Wire) (rest : List Frame),
      c.work = .start field.2 :: rest → c.result = none → c.types.Sound → t.Extends c.types →
      Reaches (t.turns depth field.2) c w (Finished c.types field.2 rest))
    (n : Nat) : ∀ (next : Nat) (fields' : List (Nat × Nat)) (c : Constraining) (w : Wire),
      fields.length - next = n → c.work = .record base fields' next :: rest →
      (next = 0 → c.result = none) → c.types.Sound → t.Extends c.types →
      c.types.Copied next fields (takeChild fields' next c.result) →
      Reaches (1 + t.fieldTurns depth next fields) c w (Finished c.types base rest) := by
  induction n using Nat.strongRecOn with
  | ind n ih =>
    intro next fields' c w hn hwork hresult hsound hext hcopied
    have heffective := (ht.effective_le base).trans_lt hbase
    have hchildren : ∀ field ∈ fields, field.2 < t.nodes.length := fun field hfield =>
      (ht.field_lt hold hfield).trans heffective
    have hchildren' : ∀ field ∈ fields, field.2 < c.types.nodes.length := fun field hfield =>
      (hchildren field hfield).trans_le hext.length_le
    have hold' : c.types.shape? (c.types.effective base) = some (.record fields) := by
      rw [hext.effective ht hsound hbase, hext.shape? heffective, hold]
    have hnone : (if next ≠ 0 then none else c.result) = none := by
      split
      · rfl
      · next h => exact hresult (not_not.1 h)
    have hready := hcopied.bounded hchildren'
    refine Reaches.turn hwork fun c₁ w₁ hturn => ?_
    unfold Constraining.turn at hturn
    dsimp only at hturn
    rw [hnone] at hturn
    cases hchild : (takeChild fields' next c.result)[c.types.firstUnbounded
        (takeChild fields' next c.result) next]? with
    | none =>
      rw [hchild] at hturn
      have hall : c.types.Copied fields.length fields (takeChild fields' next c.result) := by
        rw [List.getElem?_eq_none_iff, hready.length] at hchild
        exact ⟨hready.length, hready.names, fun i field field' hi =>
          hready.copied i field field' (by omega), fun i hi => by
            rw [List.getElem?_eq_none hi, List.getElem?_eq_none (by rw [hready.length]; exact hi)]⟩
      exact .done (finish_record (c := { c with work := rest, result := none }) hsound
        (hsound.strings_pos (hbase.trans_le hext.length_le)) (hbase.trans_le hext.length_le) hold'
        hall hturn)
    | some child =>
      rw [hchild] at hturn
      have hfield : fields[c.types.firstUnbounded (takeChild fields' next c.result) next]? =
          some child := by
        rw [← hready.left _ le_rfl, hchild]
      have hmem := List.mem_of_getElem? hfield
      have hle : next ≤ c.types.firstUnbounded (takeChild fields' next c.result) next :=
        Nat.le_add_right _ _
      have hlt := (List.getElem?_eq_some_iff.1 hfield).1
      have hturns := t.fieldTurns_child depth hle hfield
      obtain ⟨hwork₁, hresult₁, htypes₁⟩ : c₁.work = .start child.2 :: .record base
          (takeChild fields' next c.result)
          (c.types.firstUnbounded (takeChild fields' next c.result)
            next + 1) :: rest ∧ c₁.result = none ∧ c₁.types = c.types := by
        cases hturn; exact ⟨rfl, rfl, rfl⟩
      rw [← htypes₁] at hsound hext
      refine Reaches.mono ((hstart child hmem c₁ w₁ _ hwork₁ hresult₁ hsound hext).trans
        (m := 1 + t.fieldTurns depth (c.types.firstUnbounded (takeChild fields' next c.result) next
          + 1) fields) fun c₂ w₂ hchild₂ => ?_) (by omega)
      rw [htypes₁] at hsound hext hchild₂
      obtain ⟨node, hnode, -, hcopy, hbounded⟩ := hchild₂.result
      have hlonger : c.types.Extends c₂.types := hchild₂.longer
      obtain ⟨k, hk⟩ := Option.isSome_iff_exists.1 hbounded
      have hnodelt : node < c₂.types.nodes.length := by
        obtain ⟨entry, hentry, -⟩ := Option.bind_eq_some_iff.1 hk
        exact (List.getElem?_eq_some_iff.1 hentry).1
      have hcopied₂ := (hready.extends hsound hchild₂.sound hlonger hchildren').child hfield hcopy
        hbounded hnodelt
      rw [← hnode] at hcopied₂
      obtain ⟨j, hj, hfinal⟩ := ih _ (by omega) _ _ c₂ w₂ rfl hchild₂.work (by omega)
        hchild₂.sound (hext.trans hlonger) hcopied₂
      exact ⟨j, hj, fun c' w' hrun => (hfinal c' w' hrun).of_extends hlonger⟩

/-- **A started node is worked off.** The induction is on how deep the node can be. -/
theorem start_reaches (ht : t.Sound) (depth : Nat) : ∀ (id : Nat) (c : Constraining) (w : Wire)
    (rest : List Frame), id < depth → id < t.nodes.length → c.work = .start id :: rest →
      c.result = none → c.types.Sound → t.Extends c.types →
      Reaches (t.turns depth id) c w (Finished c.types id rest) := by
  induction depth with
  | zero => exact fun id _ _ _ hid => absurd hid (Nat.not_lt_zero _)
  | succ depth ih =>
    intro id c w rest hdepth hid hwork hresult hsound hext
    have heffective := (ht.effective_le id).trans_lt hid
    have hid' := hid.trans_le hext.length_le
    have hstrings := hsound.strings_pos hid'
    have hshape' : c.types.shape? (c.types.effective id) = t.shape? (t.effective id) := by
      rw [hext.effective ht hsound hid, hext.shape? heffective]
    have hchild : ∀ {shape : Shape}, t.shape? (t.effective id) = some shape →
        ∀ ref ∈ shape.refs, ref < depth ∧ ref < t.nodes.length := by
      intro shape hshape ref href
      have hle := ht.effective_le id
      have hlt := ht.refs_lt hshape ref href
      omega
    cases hshape : t.shape? (t.effective id) with
    | none =>
      rw [Types.turns, hshape]
      refine Reaches.turn (k := 0) hwork fun c₁ w₁ hturn => ?_
      unfold Constraining.turn at hturn
      dsimp only at hturn
      rw [hshape', hshape] at hturn
      cases hturn
    | some shape =>
      cases shape with
      | scalar | «alias» =>
        rw [Types.turns, hshape]
        refine Reaches.turn (k := 0) hwork fun c₁ w₁ hturn => ?_
        unfold Constraining.turn at hturn
        dsimp only at hturn
        rw [hshape', hshape] at hturn
        cases hturn
      | array element indices bounds =>
        obtain ⟨helement, helementlt⟩ := hchild hshape element (.head _)
        have helement' := helementlt.trans_le hext.length_le
        rw [hshape] at hshape'
        have hcount : t.turns (depth + 1) id = 2 + t.turns depth element := by
          rw [Types.turns, hshape]
        refine Reaches.mono (Reaches.turn (k := t.turns depth element + (1 + 0)) hwork
          fun c₁ w₁ hturn => ?_) (by omega)
        unfold Constraining.turn at hturn
        dsimp only at hturn
        rw [hshape'] at hturn
        obtain ⟨read, v, hread, hturn⟩ := Decoder.bind_eq_ok.1 hturn
        have hlength := readBounds_ensures _ _ w read v hread
        split at hturn
        · next hbounded =>
          exact .done (finish_array (c := { c with work := rest }) hsound hstrings hid' hshape'
            hlength helement' (.kept hbounded) hbounded hturn)
        · obtain ⟨hwork₁, hresult₁, htypes₁⟩ : c₁.work = .start element :: .array id indices read ::
              rest ∧ c₁.result = none ∧ c₁.types = c.types := by
            cases hturn; exact ⟨rfl, hresult, rfl⟩
          rw [← htypes₁] at hsound hext
          refine (ih element c₁ w₁ _ helement helementlt hwork₁ hresult₁ hsound hext).trans
            fun c₂ w₂ hfinished => ?_
          rw [htypes₁] at hsound hext hfinished
          refine Reaches.turn hfinished.work fun c₃ w₃ hturn => .done ?_
          obtain ⟨node, hnode, -, hcopy, hbounded⟩ := hfinished.result
          have hlonger : c.types.Extends c₂.types := hfinished.longer
          have hnodelt : node < c₂.types.nodes.length := by
            obtain ⟨n, hn⟩ := Option.isSome_iff_exists.1 hbounded
            obtain ⟨entry, hentry, -⟩ := Option.bind_eq_some_iff.1 hn
            exact (List.getElem?_eq_some_iff.1 hentry).1
          unfold Constraining.turn at hturn
          dsimp only at hturn
          rw [hnode] at hturn
          have hold₂ : c₂.types.shape? (c₂.types.effective id) =
              some (.array element indices bounds) := by
            rw [hlonger.effective hsound hfinished.sound hid',
              hlonger.shape? ((hsound.effective_le id).trans_lt hid'), hshape']
          have hid₂ := hid'.trans_le hlonger.length_le
          exact (finish_array (c := { c₂ with work := rest, result := none }) hfinished.sound
            (hfinished.sound.strings_pos hid₂) hid₂ hold₂ hlength hnodelt hcopy hbounded
            hturn).of_extends hlonger
      | record fields =>
        rw [hshape] at hshape'
        have hcount : t.turns (depth + 1) id = 2 + t.fieldTurns depth 0 fields := by
          rw [Types.turns, hshape]
          rfl
        refine Reaches.mono (Reaches.turn (k := 1 + t.fieldTurns depth 0 fields) hwork
          fun c₁ w₁ hturn => ?_) (by omega)
        unfold Constraining.turn at hturn
        dsimp only at hturn
        rw [hshape'] at hturn
        cases hturn
        refine record_reaches ht hid hshape (fun field hfield c w rest hwork hresult hsound hext =>
          ?_) _ 0 fields _ w rfl rfl (fun _ => hresult) hsound hext ?_
        · obtain ⟨hdepth', hlt⟩ := hchild hshape field.2 (List.mem_map_of_mem hfield)
          exact ih field.2 c w rest hdepth' hlt hwork hresult hsound hext
        · have htake : takeChild fields 0 c.result = fields := by
            unfold takeChild
            split <;> rfl
          rw [htake]
          exact ⟨rfl, rfl, fun i field field' hi => absurd hi (Nat.not_lt_zero _), fun i _ => rfl⟩

/-- The start of `Types::constrain`. -/
def Constraining.start (t : Types) (base : Nat) : Constraining := ⟨t, [.start base], none⟩

/-- What `Types::constrain` gives: its loop ends by itself, and a result is a new bounded copy of
the base. -/
structure ConstrainExact (t : Types) (base : Nat) (w : Wire) : Prop where
  ends : ∀ fuel, t.turns t.nodes.length base + 1 ≤ fuel →
    constrainLoop fuel (.start t base) w =
        constrainLoop (t.turns t.nodes.length base + 1) (.start t base) w ∧
      ∀ c w', constrainLoop fuel (.start t base) w = (.ok c, w') → c.work = []
  result : ∀ t' node w', t.constrain base w = (.ok (t', node), w') →
    t'.Sound ∧ t.Extends t' ∧ t.nodes.length ≤ node ∧ node < t'.nodes.length ∧
      t'.IsBounded node ∧ t'.Constrained base node

/-- A bounded node is in the table. -/
theorem IsBounded.lt {id : Nat} (h : t.IsBounded id) : id < t.nodes.length := by
  obtain ⟨n, hn⟩ := Option.isSome_iff_exists.1 h
  obtain ⟨node, hnode, -⟩ := Option.bind_eq_some_iff.1 hn
  exact (List.getElem?_eq_some_iff.1 hnode).1

/-- `Types::constrain` is exact on sound tables. -/
theorem Sound.constrainExact (ht : t.Sound) {base : Nat} (hbase : base < t.nodes.length)
    (w : Wire) :
    t.ConstrainExact base w := by
  have hreaches := start_reaches ht t.nodes.length base (.start t base) w [] hbase hbase rfl rfl ht
    (.refl t)
  have hdone : Reaches (t.turns t.nodes.length base + 1) (.start t base) w
      fun c => c.work = [] ∧ t.Finished base [] c := by
    obtain ⟨j, hj, hP⟩ := hreaches
    exact ⟨j, by omega, fun c w' hrun => ⟨(hP c w' hrun).work, hP c w' hrun⟩⟩
  refine ⟨fun fuel hfuel => ?_, fun t' node w' hrun => ?_⟩
  · obtain ⟨hsame, hP⟩ := hdone.enough hfuel
    exact ⟨hsame, fun c w' hrun => (hP c w' (hsame ▸ hrun)).1⟩
  · obtain ⟨c, v, hloop, hresult⟩ := Decoder.bind_eq_ok.1 hrun
    obtain ⟨-, hfinished⟩ := (hdone.enough le_rfl).2 c v hloop
    obtain ⟨node', hnode, hnew, hcopy, hbounded⟩ := hfinished.result
    rw [hnode] at hresult
    cases hresult
    exact ⟨hfinished.sound, hfinished.longer, hnew, hbounded.lt, hbounded, hcopy⟩

end

/-! ## The entries of the table -/

/-- A table with a new node, which is one of it. -/
structure Grown (t : Types) (r : Types × Nat) : Prop where
  sound : r.1.Sound
  strings : r.1.strings = t.strings
  sourceIds : r.1.sourceIds = t.sourceIds
  longer : t.nodes.length ≤ r.1.nodes.length
  node : r.2 < r.1.nodes.length

section
variable {t : Types}

/-- A changed node keeps the table sound when it points to the same nodes and has the same count. -/
theorem Sound.modify (ht : t.Sound) {id : Nat} {f : TypeNode → TypeNode}
    (hrefs : ∀ node, t.nodes[id]? = some node → (f node).refs = node.refs)
    (htexts : ∀ node, t.nodes[id]? = some node →
      ∀ text ∈ (f node).name :: (f node).shape.texts, text < t.strings.length)
    (hbounded : ∀ node, t.nodes[id]? = some node → (f node).shape.Bounded)
    (hscalars : ∀ node, (f node).scalars = node.scalars)
    (hcount : ∀ node, t.nodes[id]? = some node → t.count (f node).shape = t.count node.shape) :
    Sound { t with nodes := t.nodes.modify id f } := by
  have hsame : ∀ ref, Types.scalars? { t with nodes := t.nodes.modify id f } ref =
      t.scalars? ref := by
    intro ref
    rw [Types.scalars?, Types.scalars?, List.getElem?_modify]
    cases t.nodes[ref]? with
    | none => rfl
    | some node =>
      split
      · exact hscalars node
      · rfl
  refine ⟨fun id' node hnode => ?_, fun id' hid' => ?_⟩
  · have hnode' : (t.nodes.modify id f)[id']? = some node := hnode
    rw [List.getElem?_modify] at hnode'
    obtain ⟨old, hold, heq⟩ := Option.map_eq_some_iff.1 hnode'
    obtain ⟨oldRefs, oldTexts, oldBounded, oldCount, oldFits⟩ := ht.nodes id' old hold
    have hcongr : ∀ shape, Types.count { t with nodes := t.nodes.modify id f } shape =
        t.count shape := fun shape => count_congr fun ref _ => hsame ref
    by_cases hid : id = id'
    · subst hid
      rw [if_pos rfl] at heq
      subst heq
      refine ⟨by rw [hrefs old hold]; exact oldRefs, htexts old hold, hbounded old hold, ?_, ?_⟩
      · rw [hcongr, hscalars, hcount old hold]
        exact oldCount
      · rw [hscalars]
        exact oldFits
    · rw [if_neg hid] at heq
      cases heq
      exact ⟨oldRefs, oldTexts, oldBounded, by rw [hcongr]; exact oldCount, oldFits⟩
  · show id' < (t.nodes.modify id f).length
    rw [List.length_modify]
    exact ht.sourceIds id' hid'

/-- Appending a node of a valid shape grows the table and keeps it sound. -/
theorem push_grown (ht : t.Sound) {name : Nat} {base : Option Nat} {shape : Shape}
    (hnew : t.NewNode name base shape) : Decoder.Ensures t.Grown (t.push name base shape) := by
  refine (ht.push hnew).mono fun r hr => ?_
  obtain ⟨hsound, hext, hid, hnode, -⟩ := hr
  exact ⟨hsound, hext.strings, hext.sourceIds, hext.length_le,
    (List.getElem?_eq_some_iff.1 hnode).1⟩

/-- A string ID that is accepted names a string. -/
theorem stringId_ensures (t : Types) :
    Decoder.Ensures (fun id => id < t.strings.length) t.stringId := by
  refine (Decoder.Ensures.trivial uleb).bind fun id _ => ?_
  refine (ensure_ensures _ _).bind fun _ hid => .pure (of_decide_eq_true hid)

/-- A type ID that is accepted names a node of the table. -/
theorem Sound.typeId (ht : t.Sound) :
    Decoder.Ensures (fun id => id < t.nodes.length) t.typeId := by
  refine (Decoder.Ensures.trivial uleb).bind fun id _ => ?_
  cases hid : (if id = 0 then none else t.sourceIds[id - 1]?) with
  | none => exact .fail _
  | some node =>
    refine .pure (ht.sourceIds node ?_)
    split at hid
    · cases hid
    · exact List.mem_of_getElem? hid

/-- A scalar type. -/
theorem readScalar_grown (ht : t.Sound) {name : Nat} (hname : name < t.strings.length)
    (tag : UInt8) : Decoder.Ensures t.Grown (t.readScalar name tag) := by
  refine (Decoder.Ensures.trivial _).bind fun storage _ => ?_
  refine (Decoder.Ensures.trivial _).bind fun version _ => ?_
  have hpush : ∀ p : List Nat × List (Nat × Int), (∀ text ∈ p.1, text < t.strings.length) ∧
      (∀ unit ∈ p.2, unit.1 < t.strings.length) →
      Decoder.Ensures t.Grown (t.push name none (.scalar storage p.1 p.2 0)) := by
    rintro ⟨literals, units⟩ ⟨hliterals, hunits⟩
    refine push_grown ht ⟨nofun, fun text htext => ?_, trivial⟩
    rcases List.mem_cons.1 htext with rfl | htext
    · exact hname
    rcases List.mem_append.1 htext with htext | htext
    · exact hliterals text htext
    · obtain ⟨unit, hunit, rfl⟩ := List.mem_map.1 htext
      exact hunits unit hunit
  dsimp only
  refine .ite (fun _ => ?_) fun _ => .ite (fun _ => ?_) fun _ =>
    (Decoder.Ensures.pure ⟨nofun, nofun⟩).bind hpush
  · refine (Decoder.Ensures.trivial _).bind fun n _ =>
      (Decoder.Ensures.trivial _).bind fun _ _ => ?_
    exact ((stringId_ensures t).times n).bind fun literals hliterals =>
      (Decoder.Ensures.pure ⟨hliterals.2, nofun⟩).bind hpush
  · have hunit : Decoder.Ensures (fun unit : Nat × Int => unit.1 < t.strings.length) (do
        let unit ← t.stringId
        let factor ← sleb 64
        pure (unit, factor)) :=
      (stringId_ensures t).bind fun unit hunit =>
        (Decoder.Ensures.trivial _).bind fun factor _ => .pure hunit
    refine (Decoder.Ensures.trivial _).bind fun n _ => ?_
    exact (hunit.times n).bind fun units hunits =>
      (Decoder.Ensures.pure ⟨nofun, hunits.2⟩).bind hpush

/-- A scalar subtype. -/
theorem readSubtype_grown (ht : t.Sound) {name : Nat} (hname : name < t.strings.length) :
    Decoder.Ensures t.Grown (t.readSubtype name) := by
  refine ht.typeId.bind fun base hbase => ?_
  refine (Decoder.Ensures.trivial _).bind fun range _ =>
    (Decoder.Ensures.trivial _).bind fun _ _ => ?_
  refine push_grown ht ⟨fun ref href => ?_, fun text htext => ?_, trivial⟩
  · rcases List.mem_cons.1 href with rfl | href
    · exact hbase
    · obtain rfl := List.mem_singleton.1 href
      exact hbase
  · obtain rfl := List.mem_singleton.1 htext
    exact hname

/-- An array type. -/
theorem readArray_grown (ht : t.Sound) {name : Nat} (hname : name < t.strings.length) :
    Decoder.Ensures t.Grown (t.readArray name) := by
  refine ht.typeId.bind fun element helement => ?_
  refine (Decoder.Ensures.trivial _).bind fun n _ => (Decoder.Ensures.trivial _).bind fun _ _ => ?_
  have hindex : Decoder.Ensures (fun index => index < t.nodes.length) (do
      let index ← t.typeId
      ensure (((t.scalar index).map Prod.fst).any fun storage =>
          decide (storage ∈ [Storage.b2, .e8, .i32, .i64]))
            (malformed "non-discrete array index type")
      pure index) :=
    ht.typeId.bind fun index hindex => (Decoder.Ensures.trivial _).bind fun _ _ => .pure hindex
  refine (hindex.times n).bind fun indices hindices => ?_
  refine push_grown ht ⟨fun ref href => ?_, fun text htext => ?_, trivial⟩
  · rcases List.mem_cons.1 href with rfl | href
    · exact helement
    · exact hindices.2 ref href
  · obtain rfl := List.mem_singleton.1 htext
    exact hname

/-- A record type. -/
theorem readRecord_grown (ht : t.Sound) {name : Nat} (hname : name < t.strings.length) :
    Decoder.Ensures t.Grown (t.readRecord name) := by
  refine (Decoder.Ensures.trivial _).bind fun n _ => ?_
  have hfield : Decoder.Ensures
      (fun field : Nat × Nat => field.1 < t.strings.length ∧ field.2 < t.nodes.length) (do
        let field ← t.stringId
        let type ← t.typeId
        pure (field, type)) :=
    (stringId_ensures t).bind fun field hfield =>
      ht.typeId.bind fun type htype => .pure ⟨hfield, htype⟩
  refine (hfield.times n).bind fun fields hfields => ?_
  refine push_grown ht ⟨fun ref href => ?_, fun text htext => ?_, trivial⟩
  · obtain ⟨field, hmem, rfl⟩ := List.mem_map.1 href
    exact (hfields.2 field hmem).2
  · rcases List.mem_cons.1 htext with rfl | htext
    · exact hname
    · obtain ⟨field, hmem, rfl⟩ := List.mem_map.1 htext
      exact (hfields.2 field hmem).1

/-- A composite subtype with bounds. -/
theorem readBounded_grown (ht : t.Sound) {name : Nat} (hname : name < t.strings.length)
    (array : Bool) : Decoder.Ensures t.Grown (t.readBounded name array) := by
  refine ht.typeId.bind fun base hbase => (Decoder.Ensures.trivial _).bind fun _ _ => ?_
  have hconstrain : Decoder.Ensures t.Grown (t.constrain base) := by
    intro w r w' hrun
    obtain ⟨hsound, hext, -, hnode, -⟩ := (ht.constrainExact hbase w).result r.1 r.2 w' hrun
    exact ⟨hsound, hext.strings, hext.sourceIds, hext.length_le, hnode⟩
  refine hconstrain.bind fun r hr => .pure ?_
  obtain ⟨types, node⟩ := r
  obtain ⟨hsound, hstrings, hids, hlonger, hnode⟩ := hr
  refine ⟨hsound.modify (fun _ _ => rfl) (fun old hold text htext => ?_)
    (fun old hold => (hsound.nodes node old hold).bounded) (fun _ => rfl) (fun _ _ => rfl),
    hstrings, hids, ?_, ?_⟩
  · rcases List.mem_cons.1 htext with rfl | htext
    · exact hname.trans_eq (congrArg List.length hstrings.symm)
    · exact (hsound.nodes node old hold).texts text (.tail _ htext)
  · show t.nodes.length ≤ (types.nodes.modify node _).length
    rw [List.length_modify]
    exact hlonger
  · show node < (types.nodes.modify node _).length
    rw [List.length_modify]
    exact hnode

/-- A composite subtype without bounds. -/
theorem readUnbounded_grown (ht : t.Sound) {name : Nat} (hname : name < t.strings.length)
    (array : Bool) : Decoder.Ensures t.Grown (t.readUnbounded name array) := by
  refine ht.typeId.bind fun base hbase => (Decoder.Ensures.trivial _).bind fun _ _ => ?_
  refine push_grown ht ⟨fun ref href => ?_, fun text htext => ?_, trivial⟩
  · rcases List.mem_cons.1 href with rfl | href
    · exact hbase
    · obtain rfl := List.mem_singleton.1 href
      exact hbase
  · obtain rfl := List.mem_singleton.1 htext
    exact hname

/-- Every entry keeps the table sound. -/
theorem Sound.readType (ht : t.Sound) :
    Decoder.Ensures (fun t' : Types => t'.Sound ∧ t'.strings = t.strings) t.readType := by
  refine (Decoder.Ensures.trivial _).bind fun tag _ =>
    (Decoder.Ensures.trivial _).bind fun _ _ => ?_
  refine (stringId_ensures t).bind fun name hname => ?_
  have hdone : ∀ r : Types × Nat, t.Grown r →
      Decoder.Ensures (fun t' : Types => t'.Sound ∧ t'.strings = t.strings)
        (pure { r.1 with sourceIds := r.1.sourceIds ++ [r.2] } : Read Types) := by
    rintro ⟨types, node⟩ ⟨hsound, hstrings, -, -, hnode⟩
    refine .pure ⟨⟨fun id entry hentry => ?_, fun id hid => ?_⟩, hstrings⟩
    · obtain ⟨hrefs, htexts, hbounded, hcount, hfits⟩ := hsound.nodes id entry hentry
      exact ⟨hrefs, htexts, hbounded, hcount.trans (count_congr fun _ _ => rfl).symm, hfits⟩
    · rcases List.mem_append.1 hid with hid | hid
      · exact hsound.sourceIds id hid
      · obtain rfl := List.mem_singleton.1 hid
        exact hnode
  dsimp only
  split
  iterate 7 exact (readScalar_grown ht hname tag).bind hdone
  · exact (readSubtype_grown ht hname).bind hdone
  · exact (readArray_grown ht hname).bind hdone
  · exact (readRecord_grown ht hname).bind hdone
  · exact (readBounded_grown ht hname true).bind hdone
  · exact (readBounded_grown ht hname false).bind hdone
  · exact (readUnbounded_grown ht hname true).bind hdone
  · exact (readUnbounded_grown ht hname false).bind hdone
  · exact (Decoder.Ensures.fail _).bind hdone

/-- A well-known marker keeps the table sound. -/
theorem Sound.markWkt (ht : t.Sound) (marker : Nat) :
    Decoder.Ensures (fun t' : Types => t'.Sound ∧ t'.strings = t.strings ∧
      t'.nodes.length = t.nodes.length) (t.markWkt marker) := by
  refine (Decoder.Ensures.trivial _).bind fun _ _ => (Decoder.Ensures.trivial _).bind fun id _ => ?_
  cases hshape : t.shape? id with
  | none => exact .fail _
  | some shape =>
    cases shape with
    | scalar storage literals units wkt =>
      dsimp only
      cases wellKnown marker with
      | none => exact .fail _
      | some known =>
        have hnode : ∀ node, t.nodes[id]? = some node →
            node.shape = .scalar storage literals units wkt := by
          intro node hnode
          obtain ⟨node', hnode', heq⟩ := shape?_eq_some.1 hshape
          rw [hnode] at hnode'
          cases hnode'
          exact heq
        refine (Decoder.Ensures.trivial _).bind fun _ _ => .pure ⟨ht.modify ?_ ?_ ?_ ?_ ?_, rfl, ?_⟩
        · intro node h
          rw [TypeNode.refs, TypeNode.refs, hnode node h]
          rfl
        · intro node h text htext
          have htexts := (ht.nodes id node h).texts
          rw [hnode node h] at htexts
          exact htexts text htext
        · exact fun _ _ => trivial
        · exact fun _ => rfl
        · intro node h
          rw [hnode node h]
          rfl
        · exact List.length_modify ..
    | «alias» | array | record => exact .fail _

/-- The tables that the reading goes through, entry by entry. -/
inductive Reading (strings : List String) : Types → Prop
  | start : Reading strings ⟨strings, [], []⟩
  | entry {t t' : Types} {w w' : Wire} : Reading strings t → t.readType w = (.ok t', w') →
      Reading strings t'

/-- Every table that reading passes through is sound. -/
theorem Reading.sound {strings : List String} (h : Reading strings t) : t.Sound := by
  induction h with
  | start => exact .empty strings
  | entry _ hrun ih => exact (ih.readType _ _ _ hrun).1

/-- Reading some types only passes through tables that reading reaches. -/
theorem readTypes_ensures {strings : List String} (n : Nat) (h : Reading strings t) :
    Decoder.Ensures (Reading strings) (readTypes n t) := by
  induction n generalizing t with
  | zero => exact .pure h
  | succ n ih =>
    intro w t' w' hrun
    obtain ⟨t₁, w₁, htype, hrest⟩ := Decoder.bind_eq_ok.1 hrun
    exact ih (.entry h htype) w₁ t' w' hrest

/-- The table that is accepted is the last one of the reading. -/
theorem read_ensures (strings : List String) :
    Decoder.Ensures (Reading strings) (read strings) := by
  refine (Decoder.Ensures.trivial _).bind fun _ _ => (Decoder.Ensures.trivial _).bind fun _ _ => ?_
  refine (Decoder.Ensures.trivial _).bind fun n _ => (Decoder.Ensures.trivial _).bind fun _ _ => ?_
  refine (Decoder.Ensures.trivial _).bind fun _ _ => ?_
  refine (readTypes_ensures n .start).bind fun t ht =>
    (Decoder.Ensures.trivial _).bind fun _ _ => ?_
  exact (Decoder.Ensures.trivial _).bind fun _ _ => .pure ht

/-! ## Well-founded tables -/

/-- A table on which every lookup ends, with exact counts. -/
structure WellFounded (t : Types) : Prop where
  refs : ∀ (id : Nat) (node : TypeNode), t.nodes[id]? = some node → ∀ ref ∈ node.refs, ref < id
  texts : ∀ (id : Nat) (node : TypeNode), t.nodes[id]? = some node →
    ∀ text ∈ node.name :: node.shape.texts, text < t.strings.length
  effective : ∀ id, t.effective id =
    match t.shape? id with
    | some (.alias base _) => t.effective base
    | _ => id
  resolved : ∀ id base range, t.shape? (t.effective id) ≠ some (.alias base range)
  scalar : ∀ id, t.scalar id =
    match t.shape? id with
    | some (.alias base _) => t.scalar base
    | some (.scalar storage literals _ wkt) => some (storage, literals, wkt)
    | _ => none
  name : ∀ id, t.name id = (t.nodes[id]?).bind fun node =>
    if node.name ≠ 0 then some (t.strings.getD node.name "") else node.base.bind t.name
  counts : ∀ id n, t.scalars? id = some n ↔ t.Layout id n
  fits : ∀ id n, t.scalars? id = some n → n ≤ usizeMax

/-- A sound table is well-founded: references point below their node and shapes are those of the
layout. -/
theorem Sound.wellFounded (ht : t.Sound) : t.WellFounded where
  refs id node hnode := (ht.nodes id node hnode).refs
  texts id node hnode := (ht.nodes id node hnode).texts
  effective := ht.effective_eq
  resolved := ht.effective_not_alias
  scalar id := by
    unfold Types.scalar
    rw [ht.effective_eq id]
    cases hshape : t.shape? id with
    | none => rw [hshape]
    | some shape => cases shape <;> first | rfl | rw [hshape]
  name := ht.name_eq
  counts := ht.layout
  fits _ _ := ht.fits

/-- A node is an array of the same index types, with bounds, or a record of the same field names. -/
def SameComposite (t : Types) (base node : Nat) : Prop :=
  (∃ element element' indices bounds bounds',
    t.shape? (t.effective base) = some (.array element indices bounds) ∧
      t.shape? node = some (.array element' indices (some bounds')) ∧
      bounds'.length = indices.length) ∨
    ∃ fields fields', t.shape? (t.effective base) = some (.record fields) ∧
      t.shape? node = some (.record fields') ∧ fields'.map Prod.fst = fields.map Prod.fst

/-- A new bounded copy is a composite of the same shape. -/
theorem Constrained.same {base node : Nat} (ht : t.Sound) (h : t.Constrained base node)
    (hnew : node ≠ base) : t.SameComposite base node := by
  cases h with
  | kept => exact absurd rfl hnew
  | array hold hshape =>
    refine .inl ⟨_, _, _, _, _, hold, hshape, ?_⟩
    obtain ⟨entry, hentry, heq⟩ := shape?_eq_some.1 hshape
    have hbounded := (ht.nodes node entry hentry).bounded
    rw [heq] at hbounded
    exact hbounded
  | record hold hshape hnames => exact .inr ⟨_, _, hold, hshape, hnames⟩

/-- **The type table is well-founded and its counts are exact.** Every accepted table is, and so is
every table that the reading goes through, where a new node is refused just when its count overflows
or a dimension is real, and the constraints of a composite end with a new bounded copy of the same
shape. -/
theorem read_wellFounded (strings : List String) (wire : Wire) :
    (∀ t wire', read strings wire = (.ok t, wire') → t.WellFounded) ∧
      ∀ t, Reading strings t → t.WellFounded ∧
        (∀ name base shape w, (∃ e w', t.push name base shape w = (.error e, w')) ↔
          t.Overflows shape ∨ RealIndex shape) ∧
        ∀ base w, base < t.nodes.length → t.ConstrainExact base w ∧
          ∀ t' node w', t.constrain base w = (.ok (t', node), w') → t'.SameComposite base node := by
  refine ⟨fun t wire' hrun => (read_ensures strings wire t wire' hrun).sound.wellFounded,
    fun t hreading => ⟨hreading.sound.wellFounded, fun name base shape w => ?_,
      fun base w hbase => ?_⟩⟩
  · rcases t.countScalars_eq (fun _ _ => hreading.sound.fits) shape w with
      ⟨hok, hover, hreal, -⟩ | ⟨hcause, e, w', herror⟩
    · have hpush : t.push name base shape w = _ := Decoder.bind_of_ok hok
      rw [hpush]
      constructor
      · rintro ⟨e, w', h⟩
        cases h
      · rintro (h | h)
        · exact absurd h hover
        · exact absurd h hreal
    · exact ⟨fun _ => hcause, fun _ => ⟨e, w', Decoder.bind_of_error herror⟩⟩
  · have hexact := hreading.sound.constrainExact hbase w
    refine ⟨hexact, fun t' node w' hrun => ?_⟩
    obtain ⟨hsound, -, hnew, -, -, hcopy⟩ := hexact.result t' node w' hrun
    exact hcopy.same hsound (by omega)

/-- The bytes of an integer, an unbounded vector of it, an alias of the vector, an array of the
alias, this array with all its bounds, and a physical type. -/
def nestedBytes : List UInt8 :=
  [84, 89, 80, 0, 0, 0, 0, 0, 6, 0, 0, 0, 25, 1, 31, 2, 1, 1, 1, 37, 2, 2, 31, 2, 3, 1, 1, 35, 0, 4,
    25, 0, 0, 153, 0, 0, 28, 1, 0]

/-- A vector of a vector of integers, and a record with it, are read into such a table. -/
theorem read_wellFounded_nested : ∃ t wire',
    read ["", "integer", "vector", "field"] ⟨nestedBytes, none, 0, 39, false, 0, 0, 0, fun _ => 1⟩ =
      (.ok t, wire') ∧ t.WellFounded := by
  rcases hrun : read ["", "integer", "vector", "field"]
      ⟨nestedBytes, none, 0, 39, false, 0, 0, 0, fun _ => 1⟩ with ⟨e | t, wire'⟩
  · have haccepted : (read ["", "integer", "vector", "field"]
        ⟨nestedBytes, none, 0, 39, false, 0, 0, 0, fun _ => 1⟩).1.toOption.isSome = true := by
      decide +kernel
    rw [hrun] at haccepted
    cases haccepted
  · exact ⟨t, wire', rfl, (read_wellFounded _ _).1 t wire' hrun⟩

end

end Ondas.Ghw.Types
