import Mathlib.Data.Char
import Mathlib.Data.List.Lex
import Mathlib.Data.List.Nodup
import Ondas.Hierarchy.Path
import Ondas.Library.Buckets
import Ondas.Query.Slices

/-!
# Variable lookup

`Hierarchy` has the declarations of a waveform: scopes and variables, each with its name and its
parent scope. A declaration is numbered, the scopes before the variables. `nameIndex` groups the
numbers by parent and sorts each group by name; `variablePath` follows the components of a path
through it with a list of candidate parents, since several scopes may share a path.

`Found` says what a list of candidates must be: each declaration whose path is the given one, once.
One component keeps it (`found_scopes`), so the lookup finds what a search through all the variables
would (`variablePath_linear`).
-/

namespace Ondas

/-- What the lookup reads of a scope declaration. -/
structure ScopeData where
  name : Text
  parent : Option Nat
  deriving DecidableEq, Repr

/-- What the lookup reads of a variable declaration. -/
structure VariableData where
  name : Text
  parent : Option Nat
  signal : Option Nat
  deriving DecidableEq, Repr

/-- The declarations of a source. The readers supply valid indices and acyclic scope parents. -/
structure Hierarchy where
  source : Nat
  scopes : List ScopeData
  vars : List VariableData
  encodings : List Encoding
  scope_parents : ∀ scope ∈ scopes, ∀ p, scope.parent = some p → p < scopes.length
  variable_parents : ∀ v ∈ vars, ∀ p, v.parent = some p → p < scopes.length
  variable_signals : ∀ v ∈ vars, ∀ i, v.signal = some i → i < encodings.length
  acyclic : WellFounded fun parent child : Nat =>
    ∃ scope, scopes[child]? = some scope ∧ scope.parent = some parent

/-- Why a lookup fails. -/
inductive LookupError where
  | invalidPath (error : PathError)
  | notFound (path : HierarchyPath)
  | ambiguous (path : HierarchyPath) (found : Nat)
  | noSignal (path : HierarchyPath)
  | invalidSlice (error : SliceError)
  deriving DecidableEq, Repr

namespace Hierarchy

/-! ## Paths -/

/-- A parent reference that a step of the path loop follows. -/
def Above (h : Hierarchy) (parent child : Option Nat) : Prop :=
  ∃ current scope, child = some current ∧ h.scopes[current]? = some scope ∧ scope.parent = parent

/-- Going up from a scope ends at a root. -/
theorem above_wellFounded (h : Hierarchy) : WellFounded h.Above := by
  have hnone : Acc h.Above none := ⟨_, fun parent ⟨_, _, hchild, _⟩ => nomatch hchild⟩
  refine ⟨fun index => ?_⟩
  cases index with
  | none => exact hnone
  | some current =>
    induction current using h.acyclic.induction with
    | _ current ih =>
      refine ⟨_, fun parent ⟨_, scope, hchild, hscope, hparent⟩ => ?_⟩
      cases hchild
      cases parent with
      | none => exact hnone
      | some parent => exact ih parent ⟨scope, hscope, hparent⟩

/-- The loop of `scope_path_at`: the names from a scope up to its root. -/
def scopePathLoop (h : Hierarchy) (components : List Text) (index : Option Nat) : List Text :=
  match index with
  | none => components
  | some current =>
    match _hscope : h.scopes[current]? with
    | none => components
    | some scope => scopePathLoop h (components ++ [scope.name]) scope.parent
termination_by h.above_wellFounded.wrap index
decreasing_by exact ⟨current, scope, rfl, _hscope, rfl⟩

/-- `Hierarchy::scope_path_at`. -/
def scopePathAt (h : Hierarchy) (index : Option Nat) : HierarchyPath :=
  ⟨(h.scopePathLoop [] index).reverse⟩

/-- `Variable::path`. -/
def pathOf (h : Hierarchy) (v : Nat) : HierarchyPath :=
  match h.vars[v]? with
  | none => ⟨[]⟩
  | some data => ⟨(h.scopePathAt data.parent).components ++ [data.name]⟩

/-! ## Lookup -/

/-- `Hierarchy::declaration_key`. -/
def declarationKey (h : Hierarchy) (index : Nat) : Option Nat × Text :=
  match h.scopes[index]? with
  | some scope => (scope.parent, scope.name)
  | none =>
    match h.vars[index - h.scopes.length]? with
    | some data => (data.parent, data.name)
    | none => (none, [])

/-- The number of declarations. -/
def count (h : Hierarchy) : Nat := h.scopes.length + h.vars.length

/-- The group of a declaration: its parent, or the one past the scopes for the roots. -/
def groupOf (h : Hierarchy) (index : Nat) : Nat := (h.declarationKey index).1.getD h.scopes.length

/-- Where the declarations of each parent start. -/
def nameOffsets (h : Hierarchy) : List Nat :=
  Library.offsets h.groupOf (h.scopes.length + 1) (List.range h.count)

/-- The declarations grouped by parent and sorted by name. -/
def nameIndex (h : Hierarchy) (sort : Library.Sorting Nat Text) : List Nat :=
  Library.sortBuckets (h.scopes.length + 1) (sort.run fun index => (h.declarationKey index).2)
    (Library.place h.groupOf (h.scopes.length + 1) (List.range h.count) 0) h.nameOffsets

/-- `Hierarchy::declarations_named`. -/
def declarationsNamed (h : Hierarchy) (sort : Library.Sorting Nat Text) (parent : Option Nat)
    (name : Text) : List Nat :=
  Library.named (fun index => (h.declarationKey index).2)
    (Library.bucket (h.nameIndex sort) h.nameOffsets (parent.getD h.scopes.length)) name

/-- The scopes with a name under the candidate parents. -/
def scopesNamed (h : Hierarchy) (sort : Library.Sorting Nat Text) (parents : List (Option Nat))
    (name : Text) : List (Option Nat) :=
  ((parents.flatMap fun parent => h.declarationsNamed sort parent name).filter
    (· < h.scopes.length)).map some

/-- The loop of `variable_path` over the scope names; it stops where no candidate is left. -/
def parentsLoop (h : Hierarchy) (sort : Library.Sorting Nat Text) (parents : List (Option Nat)) :
    List Text → Option (List (Option Nat))
  | [] => some parents
  | name :: names =>
    match h.scopesNamed sort parents name with
    | [] => none
    | parent :: parents => parentsLoop h sort (parent :: parents) names

/-- The variables with a name under the candidate parents. -/
def variablesNamed (h : Hierarchy) (sort : Library.Sorting Nat Text) (parents : List (Option Nat))
    (name : Text) : List Nat :=
  (parents.flatMap fun parent => h.declarationsNamed sort parent name).filterMap fun index =>
    if h.scopes.length ≤ index then some (index - h.scopes.length) else none

/-- The outcome of a lookup that found these variables. -/
def resolve (path : HierarchyPath) : List Nat → Except LookupError Nat
  | [] => .error (.notFound path)
  | v :: rest =>
    if rest.length = 0 then .ok v else .error (.ambiguous path (rest.length + 1))

/-- `Hierarchy::variable_path`: the number of the variable. -/
def variablePath (h : Hierarchy) (sort : Library.Sorting Nat Text) (path : HierarchyPath) :
    Except LookupError Nat :=
  match path.components.getLast? with
  | none => .error (.notFound path)
  | some name =>
    match h.parentsLoop sort [none] path.components.dropLast with
    | none => .error (.notFound path)
    | some parents => resolve path (h.variablesNamed sort parents name)

section
variable {h : Hierarchy} {sort : Library.Sorting Nat Text}

/-- The names of a path are collected behind those that were collected before. -/
theorem scopePathLoop_append (components : List Text) (index : Option Nat) :
    h.scopePathLoop components index = components ++ h.scopePathLoop [] index := by
  induction index using h.above_wellFounded.induction generalizing components with
  | _ index ih =>
    cases index with
    | none => rw [scopePathLoop, scopePathLoop, List.append_nil]
    | some current =>
      rw [scopePathLoop, scopePathLoop]
      split
      next hnone => rw [List.append_nil]
      next scope hscope =>
        have habove : h.Above scope.parent (some current) := ⟨_, _, rfl, hscope, rfl⟩
        rw [ih _ habove (components ++ [scope.name]), ih _ habove ([] ++ [scope.name])]
        simp

@[simp] theorem scopePathAt_none : (h.scopePathAt none).components = [] := by
  rw [scopePathAt, scopePathLoop]
  rfl

/-- The path of a scope is its parent's path and its name. -/
theorem scopePathAt_some {index : Nat} {scope : ScopeData}
    (hscope : h.scopes[index]? = some scope) :
    (h.scopePathAt (some index)).components =
      (h.scopePathAt scope.parent).components ++ [scope.name] := by
  rw [scopePathAt, scopePathLoop]
  split
  next hnone => rw [hscope] at hnone; cases hnone
  next scope' hscope' =>
    rw [hscope] at hscope'
    cases hscope'
    rw [scopePathLoop_append, scopePathAt]
    simp

/-! ## Candidates -/

/-- A parent reference that the declarations may have. -/
def Refers (h : Hierarchy) (parent : Option Nat) : Prop :=
    ∀ p, parent = some p → p < h.scopes.length

/-- A declaration's own parent is one. -/
theorem refers_declarationKey (index : Nat) : h.Refers (h.declarationKey index).1 := by
  unfold declarationKey
  split
  next scope hscope => exact h.scope_parents scope (List.mem_of_getElem? hscope)
  next hnone =>
    split
    next data hdata => exact h.variable_parents data (List.mem_of_getElem? hdata)
    next => exact nofun

/-- A parent that is named, or the top, has a number below that of the scopes and one. -/
theorem refers_getD_lt {parent : Option Nat} (hparent : h.Refers parent) :
    parent.getD h.scopes.length < h.scopes.length + 1 := by
  cases parent with
  | none => exact Nat.lt_succ_self _
  | some p => exact Nat.lt_succ_of_lt (hparent p rfl)

/-- References to different parents have different groups. -/
theorem getD_inj {parent parent' : Option Nat} (hparent : h.Refers parent)
    (hparent' : h.Refers parent') :
    parent.getD h.scopes.length = parent'.getD h.scopes.length ↔ parent = parent' := by
  refine ⟨fun heq => ?_, fun heq => by rw [heq]⟩
  cases parent with
  | none =>
    cases parent' with
    | none => rfl
    | some p => exact absurd heq (Nat.ne_of_gt (hparent' p rfl))
  | some p =>
    cases parent' with
    | none => exact absurd heq (Nat.ne_of_lt (hparent p rfl))
    | some p' => exact congrArg some heq

/-- The index finds the declarations with a parent and a name, each once. -/
theorem declarationsNamed_spec (sort : Library.Sorting Nat Text) {parent : Option Nat}
    (hparent : h.Refers parent) (name : Text) :
    (h.declarationsNamed sort parent name).Nodup ∧
      ∀ index, index ∈ h.declarationsNamed sort parent name ↔
        index < h.count ∧ h.declarationKey index = (parent, name) := by
  have hgroup : ∀ index ∈ List.range h.count, h.groupOf index < h.scopes.length + 1 :=
    fun index _ => refers_getD_lt (refers_declarationKey index)
  have hperm := Library.named_bucket hgroup 0 sort (fun index => (h.declarationKey index).2)
    (refers_getD_lt hparent) name
  refine ⟨hperm.nodup_iff.2 (List.nodup_range.filter _), fun index => ?_⟩
  refine hperm.mem_iff.trans ?_
  have hkey : h.groupOf index = parent.getD h.scopes.length ↔ (h.declarationKey index).1 = parent :=
    getD_inj (refers_declarationKey index) hparent
  simp [List.mem_filter, hkey, Prod.ext_iff]

/-- The candidates under several parents, each once. -/
theorem flatMap_named (sort : Library.Sorting Nat Text) {parents : List (Option Nat)}
    (hnodup : parents.Nodup) (hparents : ∀ parent ∈ parents, h.Refers parent) (name : Text) :
    (parents.flatMap fun parent => h.declarationsNamed sort parent name).Nodup ∧
      ∀ index, index ∈ (parents.flatMap fun parent => h.declarationsNamed sort parent name) ↔
        index < h.count ∧ (h.declarationKey index).1 ∈ parents ∧
          (h.declarationKey index).2 = name := by
  constructor
  · refine List.nodup_flatMap.2
      ⟨fun parent hmem => (declarationsNamed_spec sort (hparents parent hmem) name).1, ?_⟩
    refine (List.pairwise_iff_getElem.2 fun i j hi hj hlt => ?_)
    intro index hleft hright
    have hleft :=
      ((declarationsNamed_spec sort (hparents _ (List.getElem_mem hi)) name).2 _).1 hleft
    have hright :=
      ((declarationsNamed_spec sort (hparents _ (List.getElem_mem hj)) name).2 _).1 hright
    have heq : parents[i] = parents[j] := by
      have := hleft.2.symm.trans hright.2
      exact (Prod.mk.inj this).1
    exact absurd ((List.Nodup.getElem_inj_iff hnodup).1 heq) (Nat.ne_of_lt hlt)
  · intro index
    rw [List.mem_flatMap]
    constructor
    · rintro ⟨parent, hmem, hindex⟩
      obtain ⟨hlt, hkey⟩ := ((declarationsNamed_spec sort (hparents parent hmem) name).2 _).1 hindex
      rw [hkey]
      exact ⟨hlt, hmem, rfl⟩
    · rintro ⟨hlt, hmem, hname⟩
      exact ⟨_, hmem, ((declarationsNamed_spec sort (hparents _ hmem) name).2 _).2
        ⟨hlt, Prod.ext rfl hname⟩⟩

/-- The candidates for the scopes with a path: each parent reference with that path, once. -/
def Found (h : Hierarchy) (components : List Text) (parents : List (Option Nat)) : Prop :=
  parents.Nodup ∧ ∀ parent, parent ∈ parents ↔
    h.Refers parent ∧ (h.scopePathAt parent).components = components

/-- The empty path leads to the root. -/
theorem found_root : h.Found [] [none] := by
  refine ⟨List.nodup_singleton _, fun parent => ?_⟩
  rw [List.mem_singleton]
  constructor
  · rintro rfl
    exact ⟨nofun, scopePathAt_none⟩
  · rintro ⟨hrefers, hpath⟩
    cases parent with
    | none => rfl
    | some p =>
      have hp := hrefers p rfl
      rw [scopePathAt_some (List.getElem?_eq_getElem hp)] at hpath
      exact absurd hpath (by simp)

/-- One component keeps the candidates. -/
theorem found_scopes {components : List Text} {parents : List (Option Nat)}
    (hfound : h.Found components parents) (name : Text) :
    h.Found (components ++ [name]) (h.scopesNamed sort parents name) := by
  obtain ⟨hnodup, hmem⟩ := hfound
  obtain ⟨hnodup', hmem'⟩ :=
    flatMap_named sort hnodup (fun parent hparent => ((hmem parent).1 hparent).1) name
  refine ⟨(hnodup'.filter _).map fun i j => Option.some.inj, fun parent => ?_⟩
  unfold scopesNamed
  rw [List.mem_map]
  constructor
  · rintro ⟨index, hindex, rfl⟩
    rw [List.mem_filter, hmem', decide_eq_true_eq] at hindex
    obtain ⟨⟨-, hparent, hname⟩, hlt⟩ := hindex
    have hscope := List.getElem?_eq_getElem hlt
    rw [declarationKey, hscope] at hparent hname
    refine ⟨fun p hp => ?_, ?_⟩
    · cases hp
      exact hlt
    · rw [scopePathAt_some hscope, ((hmem _).1 hparent).2]
      exact congrArg (components ++ [·]) hname
  · rintro ⟨hrefers, hpath⟩
    cases parent with
    | none =>
      rw [scopePathAt_none] at hpath
      exact absurd hpath (by simp)
    | some index =>
      have hlt := hrefers index rfl
      have hscope := List.getElem?_eq_getElem hlt
      rw [scopePathAt_some hscope] at hpath
      obtain ⟨hparent, hname⟩ := List.append_inj' hpath rfl
      refine ⟨index, List.mem_filter.2 ⟨(hmem' index).2 ⟨?_, ?_, ?_⟩, by simpa using hlt⟩, rfl⟩
      · exact Nat.lt_add_right _ hlt
      · rw [declarationKey, hscope]
        exact (hmem _).2 ⟨h.scope_parents _ (List.getElem_mem hlt), hparent⟩
      · rw [declarationKey, hscope]
        exact (List.cons.inj hname).1

/-- The loop ends with the candidates for all the components, or where there are none. -/
theorem parentsLoop_found {components : List Text} {parents : List (Option Nat)} (names : List Text)
    (hfound : h.Found components parents) :
    h.Found (components ++ names) ((h.parentsLoop sort parents names).getD []) := by
  induction names generalizing components parents with
  | nil => simpa [parentsLoop] using hfound
  | cons name names ih =>
    have hnext : h.Found (components ++ [name]) (h.scopesNamed sort parents name) :=
      found_scopes hfound name
    rw [parentsLoop]
    split
    next hnil =>
      rw [hnil] at hnext
      have hnone : ∀ more, h.Found (components ++ [name] ++ more) [] := by
        intro more
        induction more using List.reverseRecOn with
        | nil => simpa using hnext
        | append_singleton more last ihmore =>
          rw [← List.append_assoc]
          have hlast : h.Found (components ++ [name] ++ more ++ [last])
              (h.scopesNamed sort [] last) := found_scopes ihmore last
          exact hlast
      simpa using hnone names
    next parent parents' hcons =>
      rw [hcons] at hnext
      simpa using ih hnext

/-- The variables found are the variables with the path, each once. -/
theorem variablesNamed_perm {components : List Text} {parents : List (Option Nat)}
    (hfound : h.Found components parents) (name : Text) :
    (h.variablesNamed sort parents name).Perm
      ((List.range h.vars.length).filter fun v => h.pathOf v = ⟨components ++ [name]⟩) := by
  obtain ⟨hnodup, hmem⟩ := hfound
  obtain ⟨hnodup', hmem'⟩ :=
    flatMap_named sort hnodup (fun parent hparent => ((hmem parent).1 hparent).1) name
  refine (List.perm_ext_iff_of_nodup ?_ (List.nodup_range.filter _)).2 fun v => ?_
  · refine hnodup'.filterMap fun i j v hi hj => ?_
    rw [Option.mem_def] at hi hj
    split at hi
    · split at hj
      · cases hi
        have := Option.some.inj hj
        omega
      · cases hj
    · cases hi
  · unfold variablesNamed
    rw [List.mem_filterMap, List.mem_filter, List.mem_range, decide_eq_true_eq]
    have hkey : ∀ v (hv : v < h.vars.length), h.declarationKey (h.scopes.length + v) =
        (h.vars[v].parent, h.vars[v].name) := by
      intro v hv
      rw [declarationKey, List.getElem?_eq_none (Nat.le_add_right _ _)]
      dsimp only
      rw [Nat.add_sub_cancel_left, List.getElem?_eq_getElem hv]
    have hpathOf : ∀ v (hv : v < h.vars.length), (h.pathOf v = ⟨components ++ [name]⟩ ↔
        h.vars[v].parent ∈ parents ∧ h.vars[v].name = name) := by
      intro v hv
      rw [pathOf, List.getElem?_eq_getElem hv, HierarchyPath.mk.injEq, hmem]
      refine ⟨fun heq => ?_, fun ⟨⟨_, hpath⟩, hname⟩ => by rw [hpath, hname]⟩
      obtain ⟨hparent, hname⟩ := List.append_inj' heq rfl
      exact ⟨⟨h.variable_parents _ (List.getElem_mem hv), hparent⟩, (List.cons.inj hname).1⟩
    constructor
    · rintro ⟨index, hindex, hv⟩
      split at hv
      next hge =>
        cases hv
        obtain ⟨hlt, hparent, hname⟩ := (hmem' index).1 hindex
        have hv : index - h.scopes.length < h.vars.length := by
          unfold count at hlt
          omega
        have hindex' : h.scopes.length + (index - h.scopes.length) = index := by omega
        have hkey := hkey _ hv
        rw [hindex'] at hkey
        rw [hkey] at hparent hname
        exact ⟨hv, (hpathOf _ hv).2 ⟨hparent, hname⟩⟩
      next => cases hv
    · rintro ⟨hv, hpath⟩
      obtain ⟨hparent, hname⟩ := (hpathOf v hv).1 hpath
      refine ⟨h.scopes.length + v, (hmem' _).2 ⟨?_, ?_, ?_⟩, ?_⟩
      · exact Nat.add_lt_add_left hv _
      · rw [hkey v hv]
        exact hparent
      · rw [hkey v hv]
        exact hname
      · rw [if_pos (Nat.le_add_right _ _), Nat.add_sub_cancel_left]

/-- The outcome depends on the variables found, not on their order. -/
theorem resolve_perm {path : HierarchyPath} {found found' : List Nat} (hperm : found.Perm found') :
    resolve path found = resolve path found' := by
  have hlength := hperm.length_eq
  cases found with
  | nil => rw [hperm.nil_eq]
  | cons v rest =>
    cases found' with
    | nil => cases hlength
    | cons v' rest' =>
      rw [resolve, resolve, show rest'.length = rest.length by simpa using hlength.symm]
      split
      next hzero =>
        obtain rfl := List.length_eq_zero_iff.1 hzero
        rw [List.length_cons, List.length_nil, List.length_cons] at hlength
        obtain rfl := List.length_eq_zero_iff.1 (show rest'.length = 0 by omega)
        rw [List.singleton_perm_singleton.1 hperm]
      next => rfl

/-- The lookup finds what a search through the variables finds. -/
theorem variablePath_eq (path : HierarchyPath) : h.variablePath sort path =
    resolve path ((List.range h.vars.length).filter fun v => h.pathOf v = path) := by
  obtain ⟨components⟩ := path
  unfold variablePath
  cases hlast : components.getLast? with
  | none =>
    obtain rfl := List.getLast?_eq_none_iff.1 hlast
    have hnone : (List.range h.vars.length).filter (fun v => h.pathOf v = ⟨[]⟩) = [] := by
      refine List.filter_eq_nil_iff.2 fun v hv => ?_
      rw [pathOf, List.getElem?_eq_getElem (List.mem_range.1 hv)]
      simp
    rw [hnone]
    rfl
  | some name =>
    have hsplit : components.dropLast ++ [name] = components :=
      List.dropLast_append_getLast? name hlast
    have hfound : h.Found ([] ++ components.dropLast)
        ((h.parentsLoop sort [none] components.dropLast).getD []) :=
      parentsLoop_found components.dropLast found_root
    dsimp only
    have hperm : (h.variablesNamed sort _ name).Perm _ := variablesNamed_perm hfound name
    rw [List.nil_append, hsplit] at hperm
    rw [← resolve_perm hperm]
    cases h.parentsLoop sort [none] components.dropLast with
    | none => rfl
    | some parents => rfl

/-- **Indexed lookup.** The lookup by path finds the one variable whose full path is the given one;
with several it reports how many, and with none that there is none. -/
theorem variablePath_linear (h : Hierarchy) (sort : Library.Sorting Nat Text)
    (path : HierarchyPath) : h.variablePath sort path =
      match (List.range h.vars.length).filter (fun v => h.pathOf v = path) with
      | [] => .error (.notFound path)
      | [v] => .ok v
      | found => .error (.ambiguous path found.length) := by
  rw [variablePath_eq]
  split
  next hnil => rw [hnil]; rfl
  next v hone => rw [hone]; rfl
  next hnil hone =>
    cases hfound : (List.range h.vars.length).filter (fun v => h.pathOf v = path) with
    | nil => exact absurd hfound hnil
    | cons v rest =>
      cases rest with
      | nil => exact absurd hfound (hone v)
      | cons v' rest => rfl

end

end Hierarchy

end Ondas
