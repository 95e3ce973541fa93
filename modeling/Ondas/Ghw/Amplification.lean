import Ondas.Ghw.Objects

/-!
# Objects without scalars

An object of a type without scalars has no scalar IDs in the section, however many declarations it
stands for. Each of its scopes counts against `emptyScopeLimit` (`Tree.empties_eq`), and each entry
of the section takes a byte. But a null vector inside a record or an array counts against neither:
only the elements of one array are compared with the limit, and they are not counted. So the
declarations of these objects stay within the limit and the bytes of the section only as long as
their inner null vectors do (`emptyDeclarations_bounded_iff`).

`emptyDeclarations` is `Declarations.read` with a count of these declarations, and `objectTypes`
reads what the section has before any expansion.
-/

namespace Ondas.Ghw

open Library Wire Ondas.Ghw.Types

/-! ## What a section declares -/

/-- The number of declarations. -/
def Mapper.declared (m : Mapper) : Nat := m.scopes.length + m.vars.length

/-- The number of declarations that an entry has made, if it is an object without scalars. -/
def Entry.emptyDeclared (t : Types) (m m' : Mapper) : Entry → Nat
  | .object _ id _ => if t.scalars? id = some 0 then m'.declared - m.declared else 0
  | _ => 0

/-- `sectionLoop` with the number of declarations that objects without scalars make. -/
def tallyLoop (t : Types) : Nat → SectionState → Read (SectionState × Nat)
  | 0, _ => Decoder.fail (malformed "truncated field")
  | fuel + 1, s => do
    let entry ← readEntry t
    if entry = .stop then pure (s, 0)
    else do
      let s' ← s.apply t entry
      let (last, declared) ← tallyLoop t fuel s'
      pure (last, entry.emptyDeclared t s.mapper s'.mapper + declared)

/-- The number of declarations that the objects without scalars of a section make. -/
def emptyDeclarations (t : Types) : Read Nat := do
  let s ← SectionState.start
  let fuel ← Decoder.look fun w => w.rest.length + 1
  let (s, declared) ← tallyLoop t fuel s
  ensure s.stack.isEmpty (malformed "unclosed hierarchy scopes")
  pure declared

/-- The types of the objects of a section from some entry on, past the scalar IDs of each. -/
def objectTypesLoop (t : Types) : Nat → Read (List Nat)
  | 0 => Decoder.fail (malformed "truncated field")
  | fuel + 1 => do
    let entry ← readEntry t
    match entry with
    | .stop => pure []
    | .object _ id _ => do
      let _ ← Decoder.times uleb ((t.scalars? id).getD 0)
      let ids ← objectTypesLoop t fuel
      pure (id :: ids)
    | _ => objectTypesLoop t fuel

/-- The types of the objects of a section, in order. -/
def objectTypes (t : Types) : Read (List Nat) := do
  let _ ← SectionState.start
  let fuel ← Decoder.look fun w => w.rest.length + 1
  objectTypesLoop t fuel

/-! ## The size of a tree -/

mutual

/-- The number of scopes of a tree. -/
def Tree.groups : Tree → Nat
  | .leaf .. => 0
  | .group _ _ _ children => groupsAll children + 1

/-- The number of scopes of some trees. -/
def groupsAll : List Tree → Nat
  | [] => 0
  | tree :: trees => tree.groups + groupsAll trees

end

mutual

/-- The number of variables of a tree. -/
def Tree.vars : Tree → Nat
  | .leaf .. => 1
  | .group _ _ _ children => varsAll children

/-- The number of variables of some trees. -/
def varsAll : List Tree → Nat
  | [] => 0
  | tree :: trees => tree.vars + varsAll trees

end

/-- The number of variables inside the scopes of a tree. -/
def Tree.inner : Tree → Nat
  | .leaf .. => 0
  | .group _ _ _ children => varsAll children

/-- The number of variables of a tree that are inside no scope of it. -/
def Tree.outer : Tree → Nat
  | .leaf .. => 1
  | .group .. => 0

/-- The variables of a tree are the null vectors inside it and the one it may be itself. -/
theorem Tree.vars_eq (tree : Tree) : tree.vars = tree.inner + tree.outer := by
  cases tree with
  | leaf => rfl
  | group => rfl

/-- At most one null vector of a tree is the tree itself. -/
theorem Tree.outer_le (tree : Tree) : tree.outer ≤ 1 := by
  cases tree with
  | leaf => exact Nat.le_refl 1
  | group => exact Nat.zero_le 1

mutual

/-- A tree opens as many scopes as it has groups. -/
theorem Tree.length_scopes : ∀ (tree : Tree) (parent : Option Nat) (next : Nat),
    (tree.scopes parent next).length = tree.groups
  | .leaf .., _, _ => rfl
  | .group _ _ _ children, _, next => by
    rw [Tree.scopes, List.length_cons, length_scopesAll children, Tree.groups]

/-- So do some trees. -/
theorem length_scopesAll : ∀ (trees : List Tree) (parent : Option Nat) (next : Nat),
    (scopesAll trees parent next).length = groupsAll trees
  | [], _, _ => rfl
  | tree :: trees, parent, next => by
    rw [scopesAll, List.length_append, tree.length_scopes, length_scopesAll trees, groupsAll]

end

mutual

/-- A tree declares as many leaves as it has variables, whatever IDs are left for them. -/
theorem Tree.length_leaves : ∀ (tree : Tree) (parent : Option Nat) (next : Nat) (ids : List Nat),
    (tree.leaves parent next ids).length = tree.vars
  | .leaf .., _, _, _ => rfl
  | .group _ _ _ children, _, next, ids => length_leavesAll children (some next) (next + 1) ids

/-- So do some trees. -/
theorem length_leavesAll : ∀ (trees : List Tree) (parent : Option Nat) (next : Nat)
    (ids : List Nat), (leavesAll trees parent next ids).length = varsAll trees
  | [], _, _, _ => rfl
  | tree :: trees, parent, next, ids => by
    rw [leavesAll, List.length_append, tree.length_leaves, length_leavesAll trees, varsAll]

end

mutual

/-- Each scope of a tree without scalars counts against the limit. -/
theorem Tree.empties_eq : ∀ tree : Tree, tree.scalars = 0 → tree.empties = tree.groups
  | .leaf .., _ => rfl
  | .group _ _ _ children, h => by
    have hnone : scalarsAll children = 0 := h
    rw [Tree.empties, Tree.groups, hnone, emptiesAll_eq children hnone, Nat.add_comm]
    rfl

/-- Without scalars, every group of some trees counts as an empty scope. -/
theorem emptiesAll_eq : ∀ trees : List Tree, scalarsAll trees = 0 →
    emptiesAll trees = groupsAll trees
  | [], _ => rfl
  | tree :: trees, h => by
    obtain ⟨hfirst, hrest⟩ := Nat.add_eq_zero_iff.1 h
    rw [emptiesAll, groupsAll, tree.empties_eq hfirst, emptiesAll_eq trees hrest]

end

namespace Types

/-- The layouts of the types without scalars among some types. -/
def emptyTrees (t : Types) (ids : List Nat) : List Tree :=
  (ids.filter fun id => t.scalars? id == some 0).map (t.tree "")

/-- The inner null vectors of the objects without scalars are covered: by what their scopes leave of
the limit, and by the bytes that are not those of an object which is a null vector itself. -/
def InnerCovered (t : Types) (ids : List Nat) (bytes : Nat) : Prop :=
  ((t.emptyTrees ids).map Tree.inner).sum ≤
    (emptyScopeLimit - ((t.emptyTrees ids).map Tree.groups).sum) +
      (bytes - ((t.emptyTrees ids).map Tree.outer).sum)

instance (t : Types) (ids : List Nat) (bytes : Nat) : Decidable (t.InnerCovered ids bytes) :=
  inferInstanceAs (Decidable (_ ≤ _))

/-- The size of a layout does not depend on the name of the object. -/
theorem layout_size (t : Types) (depth id : Nat) (name : String) :
    (t.layout depth name id).groups = (t.layout depth "" id).groups ∧
      (t.layout depth name id).vars = (t.layout depth "" id).vars := by
  cases depth with
  | zero => exact ⟨rfl, rfl⟩
  | succ depth =>
    rw [layout, layout]
    split
    · exact ⟨rfl, rfl⟩
    · dsimp only
      split <;> exact ⟨rfl, rfl⟩
    · exact ⟨rfl, rfl⟩

end Types

/-! ## Entries -/

section
variable {t : Types} {w w' : Wire}

/-- A read that is accepted has taken its bytes. -/
theorem Wire.Moves.offset {α : Type} {k : Nat} {x : Read α} (hx : Moves k x) {a : α}
    (h : x w = (.ok a, w')) : w.offset + k ≤ w'.offset := by
  obtain ⟨n, -, hsame, hok⟩ := hx w
  rw [h] at hsame hok
  have hoffset : w'.offset = w.offset + n := congrArg Wire.offset hsame
  have := hok a rfl
  omega

theorem moves_stringId (t : Types) : Moves 0 t.stringId :=
  moves_uleb.zero.first fun _ => (moves_ensure _ _).first fun _ => .pure _

/-- Reading a type ID does not go back. -/
theorem moves_typeId (t : Types) : Moves 0 t.typeId := by
  refine moves_uleb.zero.first fun id => ?_
  split
  · exact .fail _
  · exact .pure _

/-- Nor does reading an iterator of a generate statement. -/
theorem moves_generateIterator (t : Types) : Moves 0 (generateIterator t) := by
  refine (moves_typeId t).first fun id => ?_
  split
  · exact .fail _
  · split
    iterate 2
      · refine moves_byte.zero.first fun ordinal => ?_
        split
        · exact (Moves.fail _).first fun _ => .pure _
        · exact (Moves.pure _).first fun _ => .pure _
    · exact (moves_sleb 32).zero.first fun _ => .pure _
    · exact (moves_sleb 64).zero.first fun _ => .pure _
    · exact (Moves.fail _).first fun _ => .pure _

/-- An entry takes a byte or more. -/
theorem moves_readEntry (t : Types) : Moves 1 (readEntry t) := by
  refine moves_byte.first fun tag => .ite (.pure _) (.ite (.pure _) ?_)
  refine (moves_ensure _ _).first fun _ => (moves_stringId t).first fun nameId => ?_
  refine (moves_ensure _ _).first fun _ => .ite ?_ ?_
  · exact (moves_typeId t).first fun id => (moves_ensure _ _).first fun _ => .pure _
  · exact .ite ((moves_generateIterator t).first fun _ => .pure _) (.pure _)

/-- An object that is read has a bounded type. -/
theorem readEntry_bounded (t : Types) : Decoder.Ensures
    (fun entry => ∀ name id direction, entry = .object name id direction → t.IsBounded id)
    (readEntry t) := by
  refine (Decoder.Ensures.trivial _).bind fun tag _ => .ite (fun _ => .pure nofun) fun _ =>
    .ite (fun _ => .pure nofun) fun _ => ?_
  refine (Decoder.Ensures.trivial _).bind fun _ _ => (Decoder.Ensures.trivial _).bind fun _ _ =>
    (Decoder.Ensures.trivial _).bind fun _ _ => .ite (fun _ => ?_) fun _ => ?_
  · refine (Decoder.Ensures.trivial _).bind fun id _ => (ensure_ensures _ _).bind fun _ hid =>
      .pure ?_
    rintro _ _ _ ⟨⟩
    exact hid
  · exact .ite (fun _ => (Decoder.Ensures.trivial _).bind fun _ _ => .pure nofun)
      fun _ => .pure nofun

/-- An object that is accepted: its scalar IDs are read, its declarations are those of its layout,
and the scopes of a layout without scalars are counted. -/
theorem object_size (ht : t.WellFormed) {id n : Nat} (hn : t.scalars? id = some n)
    {direction : Direction} {name : String} {parent : Option Nat} {m m' : Mapper}
    (h : m.object t name parent id direction w = (.ok m', w')) :
    (∃ ids, Decoder.times uleb n w = (.ok ids, w')) ∧
      m'.declared = m.declared + ((t.tree "" id).groups + (t.tree "" id).vars) ∧
      m.emptyScopes + (if n = 0 then (t.tree "" id).groups else 0) ≤ m'.emptyScopes ∧
      (m.emptyScopes ≤ emptyScopeLimit → m'.emptyScopes ≤ emptyScopeLimit) := by
  have hid : t.IsBounded id := Option.isSome_iff_exists.2 ⟨n, hn⟩
  rw [object_eq ht hid] at h
  obtain ⟨ids, hids, hplaced⟩ := (t.tree name id).place_ok parent m m' w w' h
  have hscalars : (t.tree name id).scalars = n :=
    ht.layout_scalars t.nodes.length id name n hid.lt hn
  obtain ⟨hgroups, hvars⟩ : (t.tree name id).groups = (t.tree "" id).groups ∧
    (t.tree name id).vars = (t.tree "" id).vars := t.layout_size t.nodes.length id name
  refine ⟨⟨ids, hscalars ▸ hids⟩, ?_, ?_, hplaced.limit⟩
  · obtain ⟨vars, heq, hshows⟩ := hplaced.vars
    rw [Mapper.declared, Mapper.declared, hplaced.scopes, heq, List.length_append,
      List.length_append, Tree.length_scopes, hshows.length_eq, Tree.length_leaves, hgroups, hvars]
    omega
  · rw [hplaced.counted]
    split
    · next hzero =>
      rw [(t.tree name id).empties_eq (hscalars.trans hzero), hgroups]
    · omega

/-- An entry that is no object counts no scope and stays where it is. -/
theorem apply_other {s s' : SectionState} {entry : Entry} (hentry : ∀ name id direction,
    entry ≠ .object name id direction) (h : s.apply t entry w = (.ok s', w')) :
    w' = w ∧ s'.mapper.emptyScopes = s.mapper.emptyScopes := by
  cases entry with
  | object name id direction => exact absurd rfl (hentry name id direction)
  | stop =>
    cases h
    exact ⟨rfl, rfl⟩
  | close =>
    obtain ⟨m, stack⟩ := s
    cases stack with
    | nil => cases h
    | cons scope stack =>
      cases h
      exact ⟨rfl, rfl⟩
  | scope name kind opens =>
    obtain ⟨⟨m, index⟩, w₁, hscope, hpure⟩ := Decoder.bind_eq_ok.1 h
    obtain ⟨hstay, -, hplaced⟩ : w₁ = w ∧ _ ∧ Mapper.Placed t .unknown _ _ _ s.mapper m :=
      Mapper.scope_ok hscope
    cases hpure
    exact ⟨hstay, hplaced.counted⟩

/-- The loop goes on after an object. -/
theorem sectionLoop_object {fuel id : Nat} {name : String} {direction : Direction}
    {s : SectionState}
    {m : Mapper} {w₁ w₂ : Wire} (hentry : readEntry t w = (.ok (.object name id direction), w₁))
    (hobject : s.mapper.object t name s.stack.head? id direction w₁ = (.ok m, w₂)) :
    sectionLoop t (fuel + 1) s w = sectionLoop t fuel { s with mapper := m } w₂ := by
  have hne : Entry.object name id direction ≠ .stop := nofun
  have happly : s.apply t (.object name id direction) w₁ = (.ok { s with mapper := m }, w₂) :=
    Decoder.bind_eq_ok.2 ⟨m, w₂, hobject, rfl⟩
  rw [sectionLoop, Decoder.bind_of_ok hentry, if_neg hne, Decoder.bind_of_ok happly]

/-- The loop ends at the end of the section. -/
theorem sectionLoop_stop {fuel : Nat} {s : SectionState}
    (hentry : readEntry t w = (.ok .stop, w')) :
    sectionLoop t (fuel + 1) s w = (.ok s, w') := by
  rw [sectionLoop, Decoder.bind_of_ok hentry]
  rfl

/-- A section whose scopes are all closed at its end is accepted. -/
theorem read_of_loop {s last : SectionState} {w₁ : Wire}
    (hstart : SectionState.start w = (.ok s, w₁))
    (hloop : sectionLoop t (w₁.rest.length + 1) s w₁ = (.ok last, w')) (hclosed : last.stack = []) :
    ∃ declarations, Declarations.read t w = (.ok declarations, w') := by
  have hlook : (Decoder.look fun w => w.rest.length + 1 : Read Nat) w₁ =
      (.ok (w₁.rest.length + 1), w₁) := rfl
  rw [Declarations.read, Decoder.bind_of_ok hstart, Decoder.bind_of_ok hlook,
    Decoder.bind_of_ok hloop, hclosed]
  exact ⟨_, rfl⟩

/-! ## Sections -/

/-- What the loop over the entries has done: the objects that it met, their declarations when they
are without scalars, and the scopes and bytes that they took. -/
structure Tallied (t : Types) (fuel : Nat) (s last : SectionState) (w w' : Wire) (ids : List Nat) :
    Prop where
  objects : objectTypesLoop t fuel w = (.ok ids, w')
  tally : tallyLoop t fuel s w =
    (.ok (last, ((t.emptyTrees ids).map fun tree => tree.groups + tree.vars).sum), w')
  counted : s.mapper.emptyScopes + ((t.emptyTrees ids).map Tree.groups).sum ≤
    last.mapper.emptyScopes
  limit : s.mapper.emptyScopes ≤ emptyScopeLimit → last.mapper.emptyScopes ≤ emptyScopeLimit
  bytes : w.offset + ids.length ≤ w'.offset

/-- An object adds a tree when its type has no scalars. -/
theorem emptyTrees_cons (t : Types) (id : Nat) (ids : List Nat) : t.emptyTrees (id :: ids) =
    if t.scalars? id = some 0 then t.tree "" id :: t.emptyTrees ids else t.emptyTrees ids := by
  unfold emptyTrees
  rw [List.filter_cons]
  by_cases h : t.scalars? id = some 0
  · rw [if_pos h, if_pos (beq_iff_eq.2 h), List.map_cons]
  · rw [if_neg h, if_neg (beq_iff_eq.not.2 h)]

/-- An object that is accepted, then the rest of the section. -/
theorem Tallied.object (ht : t.WellFormed) {fuel id n : Nat} {direction : Direction} {name : String}
    {ids : List Nat} {s last : SectionState} {m : Mapper} {w₁ w₂ : Wire}
    (hn : t.scalars? id = some n) (hentry : readEntry t w = (.ok (.object name id direction), w₁))
    (hobject : s.mapper.object t name s.stack.head? id direction w₁ = (.ok m, w₂))
    (hrest : Tallied t fuel { s with mapper := m } last w₂ w' ids) :
    Tallied t (fuel + 1) s last w w' (id :: ids) := by
  obtain ⟨⟨scalars, hscalars⟩, hdeclared, hcounted, hlimit⟩ := object_size ht hn hobject
  have hmoved := (moves_readEntry t).offset hentry
  have hmoved' := (moves_times moves_uleb.zero n).offset hscalars
  have hbytes := hrest.bytes
  have hbudget := hrest.counted
  have happly : s.apply t (.object name id direction) w₁ = (.ok { s with mapper := m }, w₂) :=
    Decoder.bind_eq_ok.2 ⟨m, w₂, hobject, rfl⟩
  refine ⟨?_, ?_, ?_, fun hle => hrest.limit (hlimit hle), ?_⟩
  · have hskip : Decoder.times uleb ((t.scalars? id).getD 0) w₁ = (.ok scalars, w₂) := by
      rw [hn]
      exact hscalars
    rw [objectTypesLoop, Decoder.bind_of_ok hentry]
    exact Decoder.bind_eq_ok.2 ⟨scalars, w₂, hskip,
      Decoder.bind_eq_ok.2 ⟨ids, w', hrest.objects, rfl⟩⟩
  · have hne : Entry.object name id direction ≠ .stop := nofun
    have hmade : Entry.emptyDeclared t s.mapper m (.object name id direction) +
        ((t.emptyTrees ids).map fun tree => tree.groups + tree.vars).sum =
        ((t.emptyTrees (id :: ids)).map fun tree => tree.groups + tree.vars).sum := by
      rw [emptyTrees_cons, Entry.emptyDeclared]
      split
      · rw [List.map_cons, List.sum_cons, hdeclared, Nat.add_sub_cancel_left]
      · exact Nat.zero_add _
    rw [tallyLoop, Decoder.bind_of_ok hentry, if_neg hne, Decoder.bind_of_ok happly,
      Decoder.bind_of_ok hrest.tally, ← hmade]
    rfl
  · rw [emptyTrees_cons, hn]
    split
    · next hzero =>
      rw [if_pos (Option.some.inj hzero)] at hcounted
      rw [List.map_cons, List.sum_cons]
      dsimp only at hbudget
      omega
    · next hsome =>
      rw [if_neg fun hzero => hsome (congrArg some hzero)] at hcounted
      dsimp only at hbudget
      omega
  · rw [List.length_cons]
    omega

/-- Another entry that is accepted, then the rest of the section. -/
theorem Tallied.other {fuel : Nat} {ids : List Nat} {s s' last : SectionState} {entry : Entry}
    {w₁ w₂ : Wire} (hstop : entry ≠ .stop)
    (hother : ∀ name id direction, entry ≠ .object name id direction)
    (hentry : readEntry t w = (.ok entry, w₁)) (happly : s.apply t entry w₁ = (.ok s', w₂))
    (hrest : Tallied t fuel s' last w₂ w' ids) : Tallied t (fuel + 1) s last w w' ids := by
  obtain ⟨rfl, hsame⟩ := apply_other hother happly
  have hmoved := (moves_readEntry t).offset hentry
  have hbytes := hrest.bytes
  refine ⟨?_, ?_, hsame ▸ hrest.counted, fun hle => hrest.limit (hsame ▸ hle), by omega⟩
  · rw [objectTypesLoop, Decoder.bind_of_ok hentry]
    cases entry with
    | stop => exact absurd rfl hstop
    | object name id direction => exact absurd rfl (hother name id direction)
    | close => exact hrest.objects
    | scope => exact hrest.objects
  · have hmade : entry.emptyDeclared t s.mapper s'.mapper = 0 := by
      cases entry with
      | object name id direction => exact absurd rfl (hother name id direction)
      | stop | close | scope => rfl
    rw [tallyLoop, Decoder.bind_of_ok hentry, if_neg hstop, Decoder.bind_of_ok happly,
      Decoder.bind_of_ok hrest.tally, hmade]
    show (Except.ok (last, 0 + _), w') = _
    rw [Nat.zero_add]

/-- **What the entries of a section declare.** The induction is on the fuel, which the entries use
up one by one. -/
theorem sectionLoop_tallied (ht : t.WellFormed) (fuel : Nat) :
    ∀ (s last : SectionState) (w w' : Wire),
    sectionLoop t fuel s w = (.ok last, w') → ∃ ids, Tallied t fuel s last w w' ids := by
  induction fuel with
  | zero => exact fun _ _ _ _ h => by cases h
  | succ fuel ih =>
    intro s last w w' h
    obtain ⟨entry, w₁, hentry, hrest⟩ := Decoder.bind_eq_ok.1 h
    by_cases hstop : entry = .stop
    · rw [if_pos hstop] at hrest
      cases hrest
      subst hstop
      have hmoved := (moves_readEntry t).offset hentry
      refine ⟨[], ?_, ?_, Nat.le_refl _, id, (Nat.le_succ _).trans hmoved⟩
      · rw [objectTypesLoop, Decoder.bind_of_ok hentry]
        rfl
      · rw [tallyLoop, Decoder.bind_of_ok hentry]
        rfl
    · rw [if_neg hstop] at hrest
      obtain ⟨s', w₂, happly, hloop⟩ := Decoder.bind_eq_ok.1 hrest
      obtain ⟨ids, htallied⟩ := ih s' last w₂ w' hloop
      by_cases hobject : ∃ name id direction, entry = .object name id direction
      · obtain ⟨name, id, direction, rfl⟩ := hobject
        obtain ⟨m, w₃, hobject, hpure⟩ := Decoder.bind_eq_ok.1 happly
        cases hpure
        obtain ⟨n, hn⟩ := Option.isSome_iff_exists.1
          (readEntry_bounded t w _ w₁ hentry name id direction rfl)
        exact ⟨id :: ids, htallied.object ht hn hentry hobject⟩
      · exact ⟨ids, htallied.other hstop
          (fun name id direction heq => hobject ⟨name, id, direction, heq⟩) hentry happly⟩

/-- What a section that is accepted declares. -/
theorem read_tallied (ht : t.WellFormed) {declarations : Declarations}
    (h : Declarations.read t w = (.ok declarations, w')) :
    ∃ ids, objectTypes t w = (.ok ids, w') ∧
      emptyDeclarations t w =
        (.ok ((t.emptyTrees ids).map fun tree => tree.groups + tree.vars).sum, w') ∧
      ((t.emptyTrees ids).map Tree.groups).sum ≤ emptyScopeLimit ∧
      w.offset + ids.length ≤ w'.offset := by
  obtain ⟨s, w₁, hstart, h₁⟩ := Decoder.bind_eq_ok.1 h
  obtain ⟨fuel, w₂, hfuel, h₂⟩ := Decoder.bind_eq_ok.1 h₁
  obtain ⟨last, w₃, hloop, h₃⟩ := Decoder.bind_eq_ok.1 h₂
  obtain ⟨_, w₄, hclosed, hpure⟩ := Decoder.bind_eq_ok.1 h₃
  obtain ⟨ids, htallied⟩ := sectionLoop_tallied ht fuel s last w₂ w₃ hloop
  have hzero : s.mapper.emptyScopes = 0 := by
    obtain ⟨_, _, -, hrest⟩ := Decoder.bind_eq_ok.1 hstart
    obtain ⟨_, _, -, hrest⟩ := Decoder.bind_eq_ok.1 hrest
    obtain ⟨_, _, -, hrest⟩ := Decoder.bind_eq_ok.1 hrest
    obtain ⟨_, _, -, hrest⟩ := Decoder.bind_eq_ok.1 hrest
    obtain ⟨_, _, -, hrest⟩ := Decoder.bind_eq_ok.1 hrest
    cases hrest
    rfl
  have hmoved : w.offset + 4 ≤ w₁.offset := by
    have hstarts : Moves 4 SectionState.start := moves_zeros.first fun _ =>
      (moves_count _).zero.first fun _ => (moves_count _).zero.first fun _ =>
        (moves_count _).zero.first fun _ => (Moves.look _).first fun _ => .pure _
    exact hstarts.offset hstart
  have hstay : w₄ = w₃ := Still.ok (.ensure _ _) hclosed
  have hbytes := htallied.bytes
  have hcounted := htallied.counted
  have hlimit := htallied.limit (hzero ▸ Nat.zero_le _)
  cases hfuel
  cases hpure
  subst hstay
  refine ⟨ids, ?_, ?_, by omega, by omega⟩
  · exact Decoder.bind_eq_ok.2 ⟨s, w₁, hstart, Decoder.bind_eq_ok.2 ⟨_, w₁, rfl, htallied.objects⟩⟩
  · exact Decoder.bind_eq_ok.2 ⟨s, w₁, hstart, Decoder.bind_eq_ok.2 ⟨_, w₁, rfl,
      Decoder.bind_eq_ok.2 ⟨_, _, htallied.tally, Decoder.bind_eq_ok.2 ⟨_, _, hclosed, rfl⟩⟩⟩⟩

/-- The size of the objects without scalars, by what counts against the limit and what does not. -/
theorem sum_size (trees : List Tree) : (trees.map fun tree => tree.groups + tree.vars).sum =
    (trees.map Tree.groups).sum + ((trees.map Tree.inner).sum + (trees.map Tree.outer).sum) := by
  induction trees with
  | nil => rfl
  | cons tree trees ih =>
    have hvars := tree.vars_eq
    simp only [List.map_cons, List.sum_cons] at ih ⊢
    omega

/-- Each object that is a null vector itself is an entry of its own. -/
theorem sum_outer_le (t : Types) (ids : List Nat) :
    ((t.emptyTrees ids).map Tree.outer).sum ≤ ids.length := by
  have hsum : ((t.emptyTrees ids).map Tree.outer).sum ≤ (t.emptyTrees ids).length := by
    induction t.emptyTrees ids with
    | nil => exact Nat.le_refl 0
    | cons tree trees ih =>
      have houter := tree.outer_le
      rw [List.map_cons, List.sum_cons, List.length_cons]
      omega
  refine hsum.trans ?_
  rw [emptyTrees, List.length_map]
  exact List.length_filter_le _ _

/-- **Empty layouts are bounded exactly when their inner null vectors are covered.** For a
well-formed table and a section that is accepted, the declarations that the objects without scalars
make are within the limit and the bytes of the section if and only if the null vectors inside the
records and arrays of these objects are. -/
theorem emptyDeclarations_bounded_iff (ht : t.WellFormed) {declarations : Declarations}
    (h : Declarations.read t w = (.ok declarations, w')) :
    ∃ ids declared, objectTypes t w = (.ok ids, w') ∧ emptyDeclarations t w = (.ok declared, w') ∧
      (declared ≤ emptyScopeLimit + (w'.offset - w.offset) ↔
        t.InnerCovered ids (w'.offset - w.offset)) := by
  obtain ⟨ids, hobjects, htally, hlimit, hbytes⟩ := read_tallied ht h
  have houter := sum_outer_le t ids
  refine ⟨ids, _, hobjects, htally, ?_⟩
  rw [sum_size, InnerCovered]
  omega

/-! ## Null vectors -/

/-- A null vector with a name. -/
inductive IsNull (t : Types) : Tree → Prop
  | leaf {name : String} {type element : Nat} {range : Option BitRange}
      {scalar : Storage × List Nat × Nat} (hname : name ≠ "") (hvector : t.scalar type = none)
      (htype : Mapper.leafType t type = pure element) (hscalar : t.scalar element = some scalar) :
      IsNull t (.leaf name type range 0)

/-- A null vector is always accepted: nothing counts it. -/
theorem IsNull.place {tree : Tree} (h : IsNull t tree) (direction : Direction)
    (parent : Option Nat) (m : Mapper) (w : Wire) :
    ∃ m', tree.place t direction parent m w = (.ok m', w) := by
  obtain ⟨hname, hvector, htype, hscalar⟩ := h
  rename_i name type element range scalar
  have hleaf : ∃ m', m.leaf t name parent type [] direction range w = (.ok m', w) := by
    unfold Mapper.leaf
    dsimp only
    rw [htype, pure_bind, hscalar, hvector]
    exact ⟨_, rfl⟩
  rw [Tree.place, bne_iff_ne.2 hname, hvector]
  exact hleaf

/-- Null vectors have no scalars. -/
theorem scalarsAll_nulls {trees : List Tree} (h : ∀ tree ∈ trees, IsNull t tree) :
    scalarsAll trees = 0 := by
  induction trees with
  | nil => rfl
  | cons tree trees ih =>
    obtain ⟨⟩ := h tree (.head _)
    rw [scalarsAll, Tree.scalars, ih fun tree' h' => h tree' (.tail _ h')]

/-- Null vectors open no scope, so none of them counts against the limit. -/
theorem emptiesAll_nulls {trees : List Tree} (h : ∀ tree ∈ trees, IsNull t tree) :
    emptiesAll trees = 0 := by
  induction trees with
  | nil => rfl
  | cons tree trees ih =>
    obtain ⟨⟩ := h tree (.head _)
    rw [emptiesAll, Tree.empties, ih fun tree' h' => h tree' (.tail _ h')]

/-- Null vectors are variables, one each. -/
theorem varsAll_nulls {trees : List Tree} (h : ∀ tree ∈ trees, IsNull t tree) :
    varsAll trees = trees.length := by
  induction trees with
  | nil => rfl
  | cons tree trees ih =>
    obtain ⟨⟩ := h tree (.head _)
    rw [varsAll, Tree.vars, ih fun tree' h' => h tree' (.tail _ h'), List.length_cons, Nat.add_comm]

/-- Null vectors are accepted, however many there are. -/
theorem placeAll_nulls {trees : List Tree} (h : ∀ tree ∈ trees, IsNull t tree)
    (direction : Direction) (parent : Option Nat) (w : Wire) :
    ∀ m, ∃ m', placeAll t direction trees parent m w = (.ok m', w) := by
  induction trees with
  | nil => exact fun m => ⟨m, rfl⟩
  | cons tree trees ih =>
    intro m
    obtain ⟨m₁, hfirst⟩ := (h tree (.head _)).place direction parent m w
    obtain ⟨m₂, hrest⟩ := ih (fun tree' h' => h tree' (.tail _ h')) m₁
    exact ⟨m₂, Decoder.bind_eq_ok.2 ⟨m₁, w, hfirst, hrest⟩⟩

/-- An array of null vectors whose elements are within what is left of the limit takes one of it. -/
theorem place_nulls {children : List Tree} (h : ∀ tree ∈ children, IsNull t tree)
    {name : String} (hname : name ≠ "") (kind : String) {elements : Nat} (direction : Direction)
    (parent : Option Nat) {m : Mapper} (hlimit : m.emptyScopes + 1 + elements ≤ emptyScopeLimit)
    (w : Wire) : ∃ m', (Tree.group name kind elements children).place t direction parent m w =
      (.ok m', w) ∧ m'.emptyScopes = m.emptyScopes + 1 := by
  have hgroup : ∃ b, m.group name parent kind elements (scalarsAll children == 0) w =
      (.ok b, w) := by
    have hne : (m.emptyScopes == emptyScopeLimit) = false := beq_eq_false_iff_ne.2 (by omega)
    have hleft : elements ≤ emptyScopeLimit - (m.emptyScopes + 1) := by omega
    rw [scalarsAll_nulls h, Mapper.group, Mapper.scope, hne]
    refine ⟨_, Decoder.bind_eq_ok.2 ⟨_, w, rfl, Decoder.bind_eq_ok.2 ⟨(), w, ?_, rfl⟩⟩⟩
    exact congrFun (if_pos (Bool.or_eq_true_iff.2 (.inr (decide_eq_true hleft)))) w
  obtain ⟨b, hb⟩ := hgroup
  obtain ⟨m', hm'⟩ := placeAll_nulls h direction (some b.2) w b.1
  have hplace : (Tree.group name kind elements children).place t direction parent m w =
      (.ok m', w) := by
    rw [place_group t direction hname]
    exact Decoder.bind_eq_ok.2 ⟨b, w, hb, hm'⟩
  obtain ⟨_, -, hplaced⟩ := Tree.place_ok _ parent m m' w w hplace
  refine ⟨m', hplace, ?_⟩
  rw [hplaced.counted, Tree.empties, scalarsAll_nulls h, emptiesAll_nulls h]
  rfl

end

/-! ## A section of null vectors -/

/-- The strings of `nullFile`. -/
def nullStrings : List String := ["", "integer", "'0'", "'1'", "bit", "bits", "array", "field"]

/-- A type table with well-known types: an integer, a bit, a vector of bits, a null one, an array of
null vectors, and one with the range from 1 to the number with the bytes `right`. -/
def nullFile (right : List UInt8) : Wire :=
  let bytes := [84, 89, 80, 0, 0, 0, 0, 0, 6, 0, 0, 0, 25, 1, 22, 4, 2, 2, 3, 31, 5, 2, 1, 1, 35, 5,
    3, 25, 0, 127, 31, 6, 4, 1, 1, 35, 6, 5, 25, 1] ++ right ++
    [0, 87, 75, 84, 0, 0, 0, 0, 0, 2, 2, 0, 72, 73, 69, 0]
  ⟨bytes, none, 0, bytes.length, false, 0, 0, 0, fun _ => 1⟩

/-- The range from 1 to a number. -/
def upTo (right : Int) : Range := ⟨.i32, false, .integer 1, .integer right⟩

/-- The table of `nullFile`. -/
def nullTable (right : Int) : Types where
  strings := nullStrings
  nodes := [⟨1, none, .scalar .i32 [] [] 0, some 1⟩, ⟨4, none, .scalar .b2 [2, 3] [] 2, some 1⟩,
    ⟨5, none, .array 1 [0] none, none⟩,
    ⟨5, some 2, .array 1 [0] (some [⟨.i32, false, .integer 0, .integer (-1)⟩]), some 0⟩,
    ⟨6, none, .array 3 [0] none, none⟩,
    ⟨6, some 4, .array 3 [0] (some [upTo right]), some 0⟩]
  sourceIds := [0, 1, 2, 3, 4, 5]

/-- A hierarchy section with two objects of the last type of `nullFile`, from some byte on, all of
it in the buffer. -/
def nullSection (offset : Nat) : Wire :=
  ⟨[0, 0, 0, 0, 0, 0, 0, 0, 0, 0, 0, 0, 0, 0, 0, 0, 16, 7, 6, 16, 7, 6, 0], none, offset, 23,
    false, 0, 23 - offset, 0, fun _ => 1⟩

section
variable {right : Int} {n : Nat}

/-- The elements of the array of null vectors. -/
def nullElements (right : Int) : List Tree :=
  ((nullTable right).componentNames 0 (upTo right)).map fun name => .leaf name 3 none 0

/-- An array over a range has a null vector for each index. -/
theorem length_nullElements (hspan : (upTo right).span (1, right) = n) :
    (nullElements right).length = n := by
  rw [nullElements, List.length_map, length_componentNames, ← hspan]
  rfl

/-- Each of them is a null vector in the table. -/
theorem nullElements_null (right : Int) : ∀ tree ∈ nullElements right,
    IsNull (nullTable right) tree := by
  intro tree htree
  obtain ⟨name, hname, rfl⟩ := List.mem_map.1 htree
  obtain ⟨position, -, rfl⟩ := List.mem_map.1 hname
  have hdiscrete : (nullTable right).Discrete 0 := ⟨.i32, [], 0, rfl, rfl⟩
  exact .leaf (componentName_ne hdiscrete position) rfl rfl rfl

/-- The layout of the array of null vectors. -/
theorem nullTable_tree (hspan : (upTo right).span (1, right) = n + 1) (name : String) :
    (nullTable right).tree name 5 = .group name "array" (n + 1) (nullElements right) := by
  have hlength : ((nullTable right).componentNames 0 (upTo right)).length = n + 1 := by
    rw [length_componentNames, ← hspan]
    rfl
  have hsome : [] ∉ [(nullTable right).componentNames 0 (upTo right)] := by
    intro hmem
    rw [← List.mem_singleton.1 hmem] at hlength
    cases hlength
  have hshape : (nullTable right).shape? ((nullTable right).effective 5) =
      some (.array 3 [0] (some [upTo right])) := rfl
  have hvector : (nullTable right).isVector 3 [0] = false := rfl
  rw [tree, show (nullTable right).nodes.length = 5 + 1 from rfl, layout, hshape]
  dsimp only
  rw [hvector, if_neg Bool.false_ne_true, List.zipWith_cons_cons, List.zipWith_nil_left, elementsOf,
    if_neg hsome, elementCount, List.map_singleton, List.prod_singleton, hlength]
  rfl

/-- An object of the array of null vectors is accepted while the limit allows its elements. -/
theorem nullTable_object (ht : (nullTable right).WellFormed)
    (hspan : (upTo right).span (1, right) = n + 1) {m : Mapper}
    (hlimit : m.emptyScopes + 1 + (n + 1) ≤ emptyScopeLimit) (w : Wire) :
    ∃ m', m.object (nullTable right) "field" none 5 .implicit w = (.ok m', w) ∧
      m'.emptyScopes = m.emptyScopes + 1 := by
  rw [object_eq ht (show (nullTable right).IsBounded 5 from rfl), nullTable_tree hspan]
  exact place_nulls (nullElements_null right) (by decide) "array" .implicit none hlimit w

/-- An object tag for the last type of the table. -/
theorem readEntry_null {w₁ w₂ w₃ w₄ : Wire} (htag : byte w₁ = (.ok 16, w₂))
    (hname : (nullTable right).stringId w₂ = (.ok 7, w₃))
    (htype : (nullTable right).typeId w₃ = (.ok 5, w₄)) :
    readEntry (nullTable right) w₁ = (.ok (.object "field" 5 .implicit), w₄) := by
  refine Decoder.bind_eq_ok.2 ⟨16, w₂, htag, ?_⟩
  rw [if_neg (by decide), if_neg (by decide)]
  refine Decoder.bind_eq_ok.2 ⟨(), w₂, rfl, Decoder.bind_eq_ok.2 ⟨7, w₃, hname, ?_⟩⟩
  refine Decoder.bind_eq_ok.2 ⟨(), w₃, rfl, ?_⟩
  rw [if_pos (by decide)]
  exact Decoder.bind_eq_ok.2 ⟨5, w₄, htype, Decoder.bind_eq_ok.2 ⟨(), w₄, rfl, rfl⟩⟩

/-- The mapper at the start of the section. -/
def nullMapper : Mapper := ⟨[], [], .empty, .blocks [none] 0 0, 0, 0⟩

/-- The section starts with an empty mapper, behind its counts. -/
theorem start_null : SectionState.start (nullSection 0) =
    (.ok ⟨nullMapper, []⟩, nullSection 16) := by
  have hnew : ScalarTable.new 0 (nullSection 16) = .blocks [none] 0 0 := by decide
  have hlook : (Decoder.look (ScalarTable.new 0) : Read ScalarTable) (nullSection 16) =
      (.ok (.blocks [none] 0 0), nullSection 16) := by
    rw [Decoder.look_apply, hnew]
  refine Decoder.bind_eq_ok.2 ⟨(), nullSection 4, rfl, ?_⟩
  refine Decoder.bind_eq_ok.2 ⟨0, nullSection 8, rfl, ?_⟩
  refine Decoder.bind_eq_ok.2 ⟨0, nullSection 12, rfl, ?_⟩
  refine Decoder.bind_eq_ok.2 ⟨0, nullSection 16, rfl, ?_⟩
  exact Decoder.bind_eq_ok.2 ⟨.blocks [none] 0 0, nullSection 16, hlook, rfl⟩

/-- Two objects with arrays of null vectors are accepted while the limit allows the elements of
one. -/
theorem nullSection_read (ht : (nullTable right).WellFormed)
    (hspan : (upTo right).span (1, right) = n + 1) (hlimit : 2 + (n + 1) ≤ emptyScopeLimit) :
    ∃ declarations, Declarations.read (nullTable right) (nullSection 0) =
      (.ok declarations, nullSection 23) := by
  have hentry : readEntry (nullTable right) (nullSection 16) =
      (.ok (.object "field" 5 .implicit), nullSection 19) := readEntry_null rfl rfl rfl
  have hentry' : readEntry (nullTable right) (nullSection 19) =
      (.ok (.object "field" 5 .implicit), nullSection 22) := readEntry_null rfl rfl rfl
  have hstop : readEntry (nullTable right) (nullSection 22) = (.ok .stop, nullSection 23) := rfl
  have hfirst : nullMapper.emptyScopes + 1 + (n + 1) ≤ emptyScopeLimit := by
    show 0 + 1 + (n + 1) ≤ emptyScopeLimit
    omega
  obtain ⟨m, hobject, hcounted⟩ := nullTable_object ht hspan hfirst (nullSection 19)
  have hcounted : m.emptyScopes = 1 := hcounted
  have hsecond : m.emptyScopes + 1 + (n + 1) ≤ emptyScopeLimit := by omega
  obtain ⟨m', hobject', -⟩ := nullTable_object ht hspan hsecond (nullSection 22)
  have hloop : sectionLoop (nullTable right) 8 ⟨nullMapper, []⟩ (nullSection 16) =
      (.ok ⟨m', []⟩, nullSection 23) := by
    have hrest : sectionLoop (nullTable right) (5 + 1) ⟨m', []⟩ (nullSection 22) =
        (.ok ⟨m', []⟩, nullSection 23) := sectionLoop_stop hstop
    rw [← sectionLoop_object (s := ⟨m, []⟩) hentry' hobject',
      ← sectionLoop_object (s := ⟨nullMapper, []⟩) hentry hobject] at hrest
    exact hrest
  exact read_of_loop start_null hloop rfl

/-- The declarations of the two objects. -/
theorem nullSection_size (hspan : (upTo right).span (1, right) = n + 1) :
    2 * (n + 1) ≤ (((nullTable right).emptyTrees [5, 5]).map fun tree =>
      tree.groups + tree.vars).sum := by
  have htrees : (nullTable right).emptyTrees [5, 5] =
      [(nullTable right).tree "" 5, (nullTable right).tree "" 5] := rfl
  rw [htrees, nullTable_tree hspan]
  simp only [List.map_cons, List.map_nil, List.sum_cons, List.sum_nil, Tree.vars,
    varsAll_nulls (nullElements_null right), length_nullElements hspan]
  omega

end

/-- A file that is read as a table of null vectors. -/
theorem parse_null {bytes : List UInt8} {right : Int}
    (h : (Types.parse nullStrings (nullFile bytes)).1.toOption.map
      (fun t => (t.strings, t.nodes, t.sourceIds)) =
        some (nullStrings, (nullTable right).nodes, (nullTable right).sourceIds)) :
    ∃ w, Types.parse nullStrings (nullFile bytes) = (.ok (nullTable right), w) := by
  rcases hrun : Types.parse nullStrings (nullFile bytes) with ⟨e | t, w⟩ <;> rw [hrun] at h
  · cases h
  · obtain ⟨strings, nodes, sourceIds⟩ := t
    cases h
    exact ⟨w, rfl⟩

/-- Two objects of an array of 600000 null vectors make more declarations than the limit and the
bytes of the section. -/
theorem emptyDeclarations_exceeds : ∃ t w declarations declared w',
    Types.parse nullStrings (nullFile [192, 207, 36]) = (.ok t, w) ∧
      Declarations.read t (nullSection 0) = (.ok declarations, w') ∧
      emptyDeclarations t (nullSection 0) = (.ok declared, w') ∧
      emptyScopeLimit + (w'.offset - (nullSection 0).offset) < declared := by
  obtain ⟨w, hparse⟩ : ∃ w, Types.parse nullStrings (nullFile [192, 207, 36]) =
    (.ok (nullTable 600000), w) := parse_null (by decide +kernel)
  have hobjects : (objectTypes (nullTable 600000) (nullSection 0)).1.toOption = some [5, 5] := by
    decide +kernel
  have hspan : (upTo 600000).span (1, 600000) = 599999 + 1 := by decide
  have ht := parse_wellFormed _ _ _ _ hparse
  obtain ⟨declarations, hread⟩ := nullSection_read ht hspan (by decide)
  obtain ⟨ids, hids, htally, -⟩ := read_tallied ht hread
  rw [hids] at hobjects
  cases hobjects
  have hsize := nullSection_size hspan
  exact ⟨_, w, declarations, _, _, hparse, hread, htally, Nat.lt_of_lt_of_le (by decide) hsize⟩

/-- Two objects of an array of 3 null vectors. -/
theorem emptyDeclarations_bounded_null : ∃ t w declarations ids declared w',
    Types.parse nullStrings (nullFile [3]) = (.ok t, w) ∧
      Declarations.read t (nullSection 0) = (.ok declarations, w') ∧
      objectTypes t (nullSection 0) = (.ok ids, w') ∧
      emptyDeclarations t (nullSection 0) = (.ok declared, w') ∧
      (declared ≤ emptyScopeLimit + (w'.offset - (nullSection 0).offset) ↔
        t.InnerCovered ids (w'.offset - (nullSection 0).offset)) := by
  obtain ⟨w, hparse⟩ : ∃ w, Types.parse nullStrings (nullFile [3]) = (.ok (nullTable 3), w) :=
    parse_null (by decide +kernel)
  have hspan : (upTo 3).span (1, 3) = 2 + 1 := by decide
  have ht := parse_wellFormed _ _ _ _ hparse
  obtain ⟨declarations, hread⟩ := nullSection_read ht hspan (by decide)
  obtain ⟨ids, declared, hobjects, htally, hiff⟩ := emptyDeclarations_bounded_iff ht hread
  exact ⟨_, w, declarations, ids, declared, _, hparse, hread, hobjects, htally, hiff⟩

end Ondas.Ghw
