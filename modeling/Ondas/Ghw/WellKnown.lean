import Ondas.Ghw.Bounds

/-!
# Well-known types

A marker of the section of well-known types names the alphabet of a logic type. `Types.markWkt`
gives it to a scalar with the storage and the literals of the marker only, and no other entry of the
table has one. So in a table that was accepted a marker says how its scalar is stored and how many
literals it has (`parse_marked`), which is what the assembly of values rests on.
-/

namespace Ondas.Ghw

open Library Wire

namespace Types

/-- A marker fits a scalar that has none, or that has the storage and as many literals as the type
the marker names. -/
inductive Fits (storage : Storage) (literals : List Nat) : Nat → Prop
  | unmarked : Fits storage literals 0
  | marked {marker : Nat} {texts : List String} : wellKnown marker = some (storage, texts) →
      literals.length = texts.length → Fits storage literals marker

/-- The marker of a scalar fits it, and its ordinals are bytes. -/
def MarkedShape : Shape → Prop
  | .scalar storage literals _ wkt => Fits storage literals wkt ∧ literals.length ≤ 256
  | _ => True

/-- Every scalar of the table is marked so. -/
def Marked (t : Types) : Prop := ∀ node ∈ t.nodes, MarkedShape node.shape

section
variable {t : Types} {storage : Storage} {literals : List Nat} {wkt : Nat}

/-- What a marker says about the storage and the number of literals. -/
theorem Fits.cases (h : Fits storage literals wkt) :
    wkt = 0 ∨ (wkt = 1 ∨ wkt = 2) ∧ storage = .b2 ∧ literals.length = 2 ∨
      wkt = 3 ∧ storage = .e8 ∧ literals.length = 9 := by
  cases h with
  | unmarked => exact .inl rfl
  | marked hknown hlength =>
    unfold wellKnown at hknown
    split at hknown
    · cases hknown
      exact .inr (.inl ⟨.inl rfl, rfl, hlength⟩)
    · cases hknown
      exact .inr (.inl ⟨.inr rfl, rfl, hlength⟩)
    · cases hknown
      exact .inr (.inr ⟨rfl, rfl, hlength⟩)
    · cases hknown

/-- The marker and the literals of a scalar, through its aliases. -/
theorem Marked.scalar (ht : t.Marked) {id : Nat} (h : t.scalar id = some (storage, literals, wkt)) :
    Fits storage literals wkt ∧ literals.length ≤ 256 := by
  unfold Types.scalar at h
  split at h
  · next hshape =>
    obtain ⟨node, hnode, heq⟩ := shape?_eq_some.1 hshape
    have hmarked := ht node (List.mem_of_getElem? hnode)
    rw [heq] at hmarked
    cases h
    exact hmarked
  · cases h

/-- A new node with a marker that fits. -/
theorem push_marked (ht : t.Marked) (name : Nat) (base : Option Nat) {shape : Shape}
    (hshape : MarkedShape shape) :
    Decoder.Ensures (fun r : Types × Nat => r.1.Marked) (t.push name base shape) := by
  refine (Decoder.Ensures.trivial _).bind fun n _ => .pure fun node hnode => ?_
  rcases List.mem_append.1 hnode with hnode | hnode
  · exact ht node hnode
  · obtain rfl := List.mem_singleton.1 hnode
    exact hshape

/-- A changed name changes no marker. -/
theorem Marked.rename (ht : t.Marked) (id name : Nat) :
    Marked { t with nodes := t.nodes.modify id fun entry => { entry with name := name } } := by
  intro node hnode
  obtain ⟨i, hi⟩ := List.getElem?_of_mem hnode
  dsimp only at hi
  rw [List.getElem?_modify] at hi
  obtain ⟨old, hold, heq⟩ := Option.map_eq_some_iff.1 hi
  have hmarked := ht old (List.mem_of_getElem? hold)
  split at heq
  · exact heq ▸ hmarked
  · exact heq ▸ hmarked

/-! ## Constraints -/

section
variable {c : Constraining}

/-- Constraining keeps the marks of the well-known types. -/
theorem finish_marked (hc : c.types.Marked) (base : Nat) {shape : Shape}
    (hshape : MarkedShape shape) :
    Decoder.Ensures (fun c' : Constraining => c'.types.Marked) (c.finish base shape) :=
  (push_marked hc 0 (some base) hshape).bind fun _ hr => .pure hr

/-- The copies that the constraints add are composites. -/
theorem turn_marked (hc : c.types.Marked) (frame : Frame) :
    Decoder.Ensures (fun c' : Constraining => c'.types.Marked) (c.turn frame) := by
  cases frame with
  | start base =>
    unfold Constraining.turn
    dsimp only
    split
    · refine (Decoder.Ensures.trivial _).bind fun bounds _ => .ite (fun _ => ?_) fun _ => .pure hc
      exact finish_marked hc base trivial
    · exact .pure hc
    · exact .fail _
  | array base indices bounds =>
    unfold Constraining.turn
    dsimp only
    split
    · exact .fail _
    · have hrest : Marked { c with result := none }.types := hc
      exact finish_marked hrest base trivial
  | record base fields next =>
    unfold Constraining.turn
    dsimp only
    split
    · have hrest : Marked
          { c with result := if next ≠ 0 then none else c.result : Constraining }.types := hc
      exact finish_marked hrest base trivial
    · exact .pure hc

/-- `Types::constrain` adds no marker. -/
theorem constrain_marked (ht : t.Marked) (base : Nat) :
    Decoder.Ensures (fun r : Types × Nat => r.1.Marked) (t.constrain base) := by
  have hloop : ∀ fuel (c : Constraining), c.types.Marked →
      Decoder.Ensures (fun c' : Constraining => c'.types.Marked) (constrainLoop fuel c) := by
    intro fuel
    induction fuel with
    | zero => exact fun c hc => .pure hc
    | succ fuel ih =>
      intro c hc
      unfold constrainLoop
      split
      · exact .pure hc
      · next frame work _ =>
        have hrest : Marked { c with work := work }.types := hc
        exact (turn_marked hrest frame).bind ih
  refine (hloop _ _ ht).bind fun c hc => ?_
  cases c.result with
  | none => exact .fail _
  | some node => exact .pure hc

end

/-! ## The entries of the table -/

/-- A scalar type is read without a marker. -/
theorem readScalar_marked (ht : t.Marked) (name : Nat) (tag : UInt8) :
    Decoder.Ensures (fun r : Types × Nat => r.1.Marked) (t.readScalar name tag) := by
  refine (Decoder.Ensures.trivial _).bind fun storage _ => ?_
  refine (Decoder.Ensures.trivial _).bind fun version _ => ?_
  have hpush : ∀ p : List Nat × List (Nat × Int), p.1.length ≤ 256 →
      Decoder.Ensures (fun r : Types × Nat => r.1.Marked)
        (t.push name none (.scalar storage p.1 p.2 0)) := fun _ hlength =>
    push_marked ht _ _ ⟨.unmarked, hlength⟩
  have hnone : ∀ units : List (Nat × Int), Decoder.Ensures
      (fun p : List Nat × List (Nat × Int) => p.1.length ≤ 256) (pure ([], units) : Read _) :=
    fun _ => .pure (Nat.zero_le _)
  dsimp only
  refine .ite (fun _ => ?_) fun _ => .ite (fun _ => ?_) fun _ => (hnone []).bind hpush
  · refine (Decoder.Ensures.trivial _).bind fun n _ => (ensure_ensures _ _).bind fun _ hn => ?_
    have hle : n ≤ 256 := by
      rw [Bool.not_eq_true', Bool.or_eq_false_iff, Bool.or_eq_false_iff,
        decide_eq_false_iff_not] at hn
      exact Nat.le_of_not_lt hn.1.2
    refine ((Decoder.Ensures.trivial _).times n).bind fun literals hliterals => ?_
    have hpair : Decoder.Ensures (fun p : List Nat × List (Nat × Int) => p.1.length ≤ 256)
        (pure (literals, []) : Read _) := .pure (hliterals.1.trans_le hle)
    exact hpair.bind hpush
  · refine (Decoder.Ensures.trivial _).bind fun n _ => ?_
    exact (Decoder.Ensures.trivial _).bind fun units _ => (hnone units).bind hpush

/-- Every entry is read without a marker. -/
theorem readType_marked (ht : t.Marked) : Decoder.Ensures Marked t.readType := by
  refine (Decoder.Ensures.trivial _).bind fun tag _ =>
    (Decoder.Ensures.trivial _).bind fun _ _ => ?_
  refine (Decoder.Ensures.trivial _).bind fun name _ => ?_
  have hdone : ∀ r : Types × Nat, r.1.Marked →
      Decoder.Ensures Marked (pure { r.1 with sourceIds := r.1.sourceIds ++ [r.2] } : Read Types) :=
    fun _ hr => .pure hr
  have hpush : ∀ base {shape : Shape}, MarkedShape shape →
      Decoder.Ensures (fun r : Types × Nat => r.1.Marked) (t.push name base shape) := fun base _ =>
    push_marked ht name base
  have hbounded : ∀ array, Decoder.Ensures (fun r : Types × Nat => r.1.Marked)
      (t.readBounded name array) := fun array =>
    (Decoder.Ensures.trivial _).bind fun base _ => (Decoder.Ensures.trivial _).bind fun _ _ =>
      (constrain_marked ht base).bind fun r hr => .pure (hr.rename r.2 name)
  have hunbounded : ∀ array, Decoder.Ensures (fun r : Types × Nat => r.1.Marked)
      (t.readUnbounded name array) := fun array =>
    (Decoder.Ensures.trivial _).bind fun base _ => (Decoder.Ensures.trivial _).bind fun _ _ =>
      hpush _ trivial
  have hsubtype : Decoder.Ensures (fun r : Types × Nat => r.1.Marked) (t.readSubtype name) :=
    (Decoder.Ensures.trivial _).bind fun base _ => (Decoder.Ensures.trivial _).bind fun range _ =>
      (Decoder.Ensures.trivial _).bind fun _ _ => hpush _ trivial
  have harray : Decoder.Ensures (fun r : Types × Nat => r.1.Marked) (t.readArray name) :=
    (Decoder.Ensures.trivial _).bind fun element _ => (Decoder.Ensures.trivial _).bind fun n _ =>
      (Decoder.Ensures.trivial _).bind fun _ _ => (Decoder.Ensures.trivial _).bind fun indices _ =>
        hpush _ trivial
  have hrecord : Decoder.Ensures (fun r : Types × Nat => r.1.Marked) (t.readRecord name) :=
    (Decoder.Ensures.trivial _).bind fun n _ => (Decoder.Ensures.trivial _).bind fun fields _ =>
      hpush _ trivial
  dsimp only
  split
  iterate 7 exact (readScalar_marked ht name tag).bind hdone
  · exact hsubtype.bind hdone
  · exact harray.bind hdone
  · exact hrecord.bind hdone
  · exact (hbounded true).bind hdone
  · exact (hbounded false).bind hdone
  · exact (hunbounded true).bind hdone
  · exact (hunbounded false).bind hdone
  · exact (Decoder.Ensures.fail _).bind hdone

/-- A table that was read has no marker. -/
theorem read_marked (strings : List String) : Decoder.Ensures Marked (read strings) := by
  refine (read_ensures strings).mono fun t ht => ?_
  induction ht with
  | start => exact nofun
  | entry _ hrun ih => exact readType_marked ih _ _ _ hrun

/-! ## The section of well-known types -/

/-- A marker is given to a type that it fits. -/
theorem markWkt_marked (ht : t.Marked) (marker : Nat) :
    Decoder.Ensures Marked (t.markWkt marker) := by
  refine (Decoder.Ensures.trivial _).bind fun _ _ => (Decoder.Ensures.trivial _).bind fun id _ => ?_
  split
  · next storage literals units wkt hshape =>
    split
    · exact .fail _
    · next expectedStorage expected hknown =>
      refine (ensure_ensures _ _).bind fun _ hfits => .pure fun node hnode => ?_
      rw [Bool.and_eq_true, Bool.and_eq_true, beq_iff_eq, beq_iff_eq] at hfits
      obtain ⟨⟨rfl, htexts⟩, -⟩ := hfits
      have hlength : literals.length = expected.length := by rw [← htexts, List.length_map]
      obtain ⟨marked, hmarked, hshape'⟩ := shape?_eq_some.1 hshape
      have hle : literals.length ≤ 256 := by
        have hold := ht marked (List.mem_of_getElem? hmarked)
        rw [hshape'] at hold
        exact hold.2
      obtain ⟨i, hi⟩ := List.getElem?_of_mem hnode
      dsimp only at hi
      rw [List.getElem?_modify] at hi
      obtain ⟨old, hold, heq⟩ := Option.map_eq_some_iff.1 hi
      split at heq
      · exact heq ▸ ⟨Fits.marked hknown hlength, hle⟩
      · exact heq ▸ ht old (List.mem_of_getElem? hold)
  · exact .fail _

/-- In the table that the reader goes on with, the markers fit. -/
theorem parse_marked (strings : List String) : Decoder.Ensures Marked (parse strings) :=
  parse_ensures (read_marked strings) fun _ ht =>
  wkt_ensures (fun _ marker ht => markWkt_marked ht marker) ht

end

end Types

end Ondas.Ghw
