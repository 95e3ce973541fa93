import Mathlib.Data.List.Destutter
import Ondas.Ghw.Body
import Ondas.Ghw.Sources
import Ondas.Ghw.WellKnown
import Ondas.Library.KeyRange

/-!
# Assembling the values of signals

`Reader::read` keeps a buffer for each selected signal. A scalar of the walk goes to every position
of every buffer that has its source ID (`Dependency`), which `Assembly.consume` finds by the rank of
the scalar, by its route or by a search; all three lead to the same dependencies
(`Assembly.Fitted.range`). At the end of a list the buffers that were touched are handed over once
all their source IDs have been seen.

What the walk delivers for a source ID is stored as the active table says (`Stores`,
`walkStep_delivered`). An index outside a list, where the source panics, is none.
-/

namespace Ondas.Ghw

open Library Wire Ondas.Ghw.Types

/-! ## Buffers -/

/-- The value of a signal while it is assembled: `Buffer` of the reader. -/
structure Buffer where
  index : Nat
  digits : List UInt8
  real : UInt64
  required : Nat
  known : Nat
  wkt : Nat
  vector : Bool
  deriving DecidableEq, Repr

namespace Buffer

/-- The digits of a well-known type. -/
def alphabet (wkt : Nat) : List UInt8 := if wkt = 3 then ascii "ux01zwlh-" else ascii "01"

/-- The digit of the lowest of some bits. -/
def bitDigit (bits : Nat) : UInt8 := 48 + UInt8.ofNat (bits &&& 1)

/-- The last part of `Buffer::update`: some bits as digits, the lowest one last. A shift by 64 or
more panics. -/
def setBits (b : Buffer) (bits : Nat) : Option Buffer :=
  if 64 < b.digits.length then none
  else some { b with
    digits := b.digits.mapIdx fun i _ => bitDigit (bits >>> (b.digits.length - 1 - i)) }

/-- `Buffer::update`. -/
def update (b : Buffer) (position : Nat) (value : Scalar) (first : Bool) : Option Buffer :=
  let b := if first then { b with known := b.known + 1 } else b
  match value with
  | .real bits => some { b with real := bits }
  | .ordinal ordinal =>
    if b.wkt ≠ 0 then
      match (alphabet b.wkt)[ordinal.toNat]? with
      | none => none
      | some digit =>
        let slot := if b.vector then position else 0
        if slot < b.digits.length then some { b with digits := b.digits.set slot digit } else none
    else b.setBits ordinal.toNat
  | .integer value => b.setBits (value % 2 ^ 64).toNat

/-- `Buffer::value`. -/
def value (b : Buffer) : Value := if b.digits.isEmpty then .real b.real else .bits b.digits

/-- The width of the digits of an encoding. -/
def widthOf : Encoding → Option Nat
  | .bits width => some width
  | .real => some 0
  | _ => none

/-- The buffer of a selected signal. -/
def new (t : Types) (index : Nat) (recipe : Recipe) : Read Buffer :=
  match t.scalar recipe.scalarType with
  | none => Decoder.fail (malformed "non-scalar recipe encoding")
  | some (_, _, wkt) =>
    match widthOf recipe.encoding with
    | none => Decoder.fail (unsupported "recipe value class")
    | some width => pure {
        index, digits := List.replicate width 48, real := 0, required := recipe.ids.length,
        known := 0, wkt, vector := recipe.vector }

end Buffer

/-! ## Dependencies -/

/-- A position of a buffer that has a source ID: `Dependency`. -/
structure Dependency where
  id : Nat
  slot : Nat
  position : Nat
  seen : Bool
  deriving DecidableEq, Repr

/-- `dependency_range`. -/
def dependencyRange (dependencies : List Dependency) (id : Nat) : Nat × Nat :=
  keyRange (dependencies.map Dependency.id) id

/-- `dependency_ranges`. -/
def dependencyRanges (active : Active) (dependencies : List Dependency) : List (Nat × Nat) :=
  keyRanges (dependencies.map Dependency.id) (active.map Prod.fst) 0

/-- `selected_ranges`. -/
def selectedRanges (dependencies : List Dependency) (ids : List Nat) : List (Nat × Nat) :=
  ids.map (dependencyRange dependencies)

/-- `event_range` of a scalar event. -/
def eventRange (event : ScalarEvent) (broad selected : Option (List (Nat × Nat)))
    (dependencies : List Dependency) : Nat × Nat :=
  match broad, selected with
  | some routes, _ => (routes[event.rank]?).getD (dependencyRange dependencies event.id)
  | none, some routes =>
    if event.route ≠ noRoute then
      (routes[event.route]?).getD (dependencyRange dependencies event.id)
    else dependencyRange dependencies event.id
  | none, none => dependencyRange dependencies event.id

/-- The source IDs of some dependencies, each once: `ids` of the reader. -/
def sourceIdsOf (dependencies : List Dependency) : List Nat :=
  (dependencies.map Dependency.id).destutter (· ≠ ·)

/-- What a read hands to its visitor: `Notification`. -/
inductive Notification where
  | value (index time : Nat) (value : Value)
  | tick (time : Nat)
  deriving DecidableEq, Repr

/-- The local variables of `Reader::read` that its consumer changes, and the ranges it looks up. -/
structure Assembly where
  buffers : List Buffer
  dependencies : List Dependency
  marks : List Bool
  touched : List Nat
  routes : Option (List (Nat × Nat))
  selected : Option (List (Nat × Nat))

/-- The dependencies of a recipe in a slot. -/
def Recipe.dependencies (recipe : Recipe) (slot : Nat) : List Dependency :=
  recipe.ids.zipIdx.map fun (id, position) => ⟨id, slot, position, false⟩

namespace Assembly

/-- The first loop of `Reader::read`: the buffers and the dependencies of the selected signals. -/
def gather (t : Types) (recipes : List Recipe) :
    List Signal → List Buffer → List Dependency → Read (List Buffer × List Dependency)
  | [], buffers, dependencies => pure (buffers, dependencies)
  | signal :: signals, buffers, dependencies =>
    match recipes[signal.index]? with
    | none => Decoder.fail (malformed "invalid private recipe index")
    | some recipe => do
      let buffer ← Buffer.new t signal.index recipe
      gather t recipes signals (buffers ++ [buffer])
        (dependencies ++ recipe.dependencies buffers.length)

/-- `Reader::read` up to its consumer. `sort` is `sort_unstable_by_key`, which leaves open how equal
source IDs are ordered; `indexed` says that there is an index. -/
def prepare (t : Types) (recipes : List Recipe) (active : Active) (indexed : Bool)
    (sort : List Dependency → List Dependency) (signals : List Signal) : Read Assembly := do
  let (buffers, dependencies) ← gather t recipes signals [] []
  let dependencies := sort dependencies
  let ids := sourceIdsOf dependencies
  let broad := decide ((active.length + 1) / 2 ≤ ids.length)
  pure {
    buffers, dependencies, marks := buffers.map fun _ => false, touched := [],
    routes := if broad then some (dependencyRanges active dependencies) else none
    selected := if !broad && indexed then some (selectedRanges dependencies ids) else none }

/-- A buffer is updated, and its slot touched. -/
def put (a : Assembly) (slot : Nat) (buffer : Buffer) : Assembly :=
  let marked := a.marks.getD slot true
  { a with
    buffers := a.buffers.set slot buffer
    marks := if marked then a.marks else a.marks.set slot true
    touched := if marked then a.touched else a.touched ++ [slot] }

/-- The inner loop of the consumer: a value goes to some dependencies. -/
def updateAll (value : Scalar) (first : Bool) : List Dependency → Assembly → Option Assembly
  | [], a => some a
  | dependency :: dependencies, a =>
    match a.buffers[dependency.slot]? with
    | none => none
    | some buffer =>
      match buffer.update dependency.position value first with
      | none => none
      | some buffer => updateAll value first dependencies (a.put dependency.slot buffer)

/-- The consumer at a scalar: the first dependency of its source ID keeps whether the ID was
seen. -/
def scalarEvent (a : Assembly) (event : ScalarEvent) : Option Assembly :=
  let range := eventRange event a.routes a.selected a.dependencies
  if range.2 ≤ range.1 then some a
  else
    match a.dependencies[range.1]? with
    | none => none
    | some owner =>
      let a := { a with dependencies := a.dependencies.set range.1 { owner with seen := true } }
      if a.dependencies.length < range.2 then none
      else updateAll event.value (!owner.seen)
        ((a.dependencies.drop range.1).take (range.2 - range.1)) a

/-- The consumer at the end of a list: the buffers that were touched and are complete. -/
def listEnd (a : Assembly) (time : Nat) : List Notification × Assembly :=
  (a.touched.filterMap fun slot => (a.buffers[slot]?).bind fun buffer =>
      if buffer.known = buffer.required then some (.value buffer.index time buffer.value) else none,
    { a with
      marks := a.touched.foldl (fun marks slot => marks.set slot false) a.marks
      touched := [] })

/-- The consumer of `Reader::read`, with the notifications for its visitor. -/
def consume (a : Assembly) : Event → Option (List Notification × Assembly)
  | .scalar event => (a.scalarEvent event).map fun a => ([], a)
  | .listEnd time => some (a.listEnd time)
  | .tick time => some ([.tick time], a)

/-- The consumer over some events. -/
def run (a : Assembly) : List Event → Option (List Notification × Assembly)
  | [] => some ([], a)
  | event :: events => do
    let (notifications, a) ← a.consume event
    let (more, a) ← run a events
    pure (notifications ++ more, a)

/-- The values of the buffers. -/
def values (a : Assembly) : List Value := a.buffers.map Buffer.value

end Assembly

/-! ## What the walk delivers -/

/-- A value as `body::scalar` decodes it for a storage and a number of literals. -/
inductive Stores (n : Nat) : Storage → Scalar → Prop
  | ordinal {storage : Storage} {ordinal : UInt8} : storage.isEnum = true → ordinal.toNat < n →
      Stores n storage (.ordinal ordinal)
  | integer {storage : Storage} {value : Int} : storage ∈ [Storage.i32, .i64, .p32, .p64] →
      Stores n storage (.integer value)
  | real {bits : UInt64} : Stores n .f64 (.real bits)

/-- A value of a scalar type. -/
def StoredAs (t : Types) (type : Nat) (value : Scalar) : Prop :=
  ∃ storage literals wkt, t.scalar type = some (storage, literals, wkt) ∧
    Stores literals.length storage value

/-- A scalar event with the source ID of its rank and a value of its type. It has no route, or that
of its source ID among those that were selected. -/
structure Delivers (t : Types) (active : Active) (ids : List Nat) (event : ScalarEvent) : Prop where
  stored : ∃ type, active[event.rank]? = some (event.id, type) ∧ StoredAs t type event.value
  route : event.route = noRoute ∨ ids[event.route]? = some event.id

section
variable {t : Types} {active : Active} {ids : List Nat}

/-- A scalar that is decoded is stored as its type says: an ordinal names a literal. -/
theorem scalar_stored (type : Nat) : Decoder.Ensures (StoredAs t type) (scalar t type) := by
  unfold scalar
  cases hscalar : t.scalar type with
  | none => exact .fail _
  | some found =>
    obtain ⟨storage, literals, wkt⟩ := found
    have hstored : ∀ {value}, Stores literals.length storage value → StoredAs t type value :=
      fun hstores => ⟨storage, literals, wkt, hscalar, hstores⟩
    cases storage with
    | b2 | e8 =>
      refine (Decoder.Ensures.trivial _).bind fun ordinal _ =>
        (ensure_ensures _ _).bind fun _ hlt => ?_
      exact .pure (hstored (.ordinal rfl (of_decide_eq_true hlt)))
    | i32 | p32 | i64 | p64 =>
      exact (Decoder.Ensures.trivial _).bind fun value _ => .pure (hstored (.integer (by decide)))
    | f64 => exact (Decoder.Ensures.trivial _).bind fun bits _ => .pure (hstored .real)

/-- A scalar that is decoded inside a window is stored alike. -/
theorem windowValue_stored {bigEndian : Bool} {type n : Nat} {bytes : List UInt8} {value : Scalar}
    (h : windowValue t bigEndian type bytes = some (value, n)) : StoredAs t type value := by
  unfold windowValue at h
  cases hscalar : t.scalar type with
  | none => rw [hscalar] at h; cases h
  | some found =>
    obtain ⟨storage, literals, wkt⟩ := found
    rw [hscalar] at h
    refine ⟨storage, literals, wkt, hscalar, ?_⟩
    cases storage with
    | b2 | e8 =>
      cases bytes with
      | nil => cases h
      | cons ordinal bytes =>
        dsimp only at h
        split at h
        · next hlt =>
          cases h
          exact .ordinal rfl hlt
        · cases h
    | i32 | p32 | i64 | p64 =>
      obtain ⟨field, -, heq⟩ := Option.map_eq_some_iff.1 h
      cases heq
      exact .integer (by decide)
    | f64 =>
      dsimp only at h
      split at h
      · cases h
        exact .real
      · cases h

/-- The scalar events of some emissions are delivered for an active table. -/
def AllDelivered (t : Types) (active : Active) (ids : List Nat)
    (emissions : List Emission) : Prop :=
  ∀ emission ∈ emissions, ∀ event, emission.event = .scalar event → Delivers t active ids event

theorem AllDelivered.nil : AllDelivered t active ids [] := nofun

/-- A single event that is delivered. -/
theorem AllDelivered.one {w : Walk} {event : ScalarEvent} (h : Delivers t active ids event) :
    AllDelivered t active ids [w.emit (.scalar event)] := by
  intro emission hmem found heq
  obtain rfl := List.mem_singleton.1 hmem
  cases heq
  exact h

/-- Ticks carry no scalar. -/
theorem AllDelivered.ticks (w : Walk) (ticks : List Nat) :
    AllDelivered t active ids (ticks.map fun time => w.emit (.tick time)) := by
  intro emission hmem event heq
  obtain ⟨time, -, rfl⟩ := List.mem_map.1 hmem
  cases heq

/-- Neither does the end of a list. -/
theorem AllDelivered.listEnd (w : Walk) (time : Nat) :
    AllDelivered t active ids [w.emit (.listEnd time)] := by
  intro emission hmem event heq
  obtain rfl := List.mem_singleton.1 hmem
  cases heq

/-- A read before the emissions of a step changes nothing, and delivers nothing when it fails. -/
theorem AllDelivered.after {α : Type} {w : Walk} {x : Read α}
    {next : α → Walk → List Emission × Outcome Walk Walked}
    (h : ∀ a wire, x w.wire = (.ok a, wire) →
      AllDelivered t active ids (next a { w with wire := wire }).1) :
    AllDelivered t active ids (w.after x next).1 := by
  unfold Walk.after
  rcases hrun : x w.wire with ⟨e | a, wire⟩
  · exact .nil
  · exact h a wire hrun

/-- A walk that ends completes its last tick only. -/
theorem AllDelivered.finish (w : Walk) (ticks : List Nat) :
    AllDelivered t active ids (w.finish (ticks.map Event.tick)).1 := by
  intro emission hmem event heq
  obtain ⟨tick, htick, rfl⟩ := List.mem_map.1 hmem
  obtain ⟨time, -, rfl⟩ := List.mem_map.1 htick
  cases heq

/-- Entering a snapshot or a cycle emits ticks at most. -/
theorem AllDelivered.enter (w : Walk) (stop : Nat) (time : Int) (phase : Phase) :
    AllDelivered t active ids (w.enter stop time phase).1 := by
  unfold Walk.enter
  split
  · exact .nil
  · exact .finish w _
  · exact .ticks w _

/-- The records of the window. -/
theorem window_delivered (b : Body) (bigEndian : Bool) (time : Int) (span : Option TimeSpan)
    (base : Nat) (bytes : List UInt8) (fuel : Nat) : ∀ consumed rank,
    AllDelivered b.types b.active ids
      (window b bigEndian time span base bytes fuel consumed rank).1 := by
  induction fuel with
  | zero => exact fun _ _ => .nil
  | succ fuel ih =>
    intro consumed rank
    unfold window
    split
    · exact .nil
    · split
      · exact .nil
      · next next id width value length hfield =>
        intro emission hmem event heq
        rcases List.mem_cons.1 hmem with rfl | hmem
        · cases heq
          refine ⟨?_, .inl rfl⟩
          unfold windowField at hfield
          split at hfield
          · cases hfield
          · next delta count _ =>
            split at hfield
            · cases hfield
            · split at hfield
              · cases hfield
              · split at hfield
                · cases hfield
                · next source type hactive =>
                  split at hfield
                  · cases hfield
                  · next hvalue =>
                    cases hfield
                    exact ⟨type, hactive, windowValue_stored hvalue⟩
        · exact ih _ _ emission hmem event heq

/-- A step inside a cycle list delivers the scalar of its next rank. -/
theorem cycleStep_delivered (b : Body) (w : Walk) (time : Int) (rank : Nat) :
    AllDelivered b.types b.active ids (cycleStep b w time rank).1 := by
  refine .after fun record wire hrecord => ?_
  cases record with
  | none => exact .listEnd _ _
  | some record =>
    obtain ⟨next, id, offset, value⟩ := record
    refine .one ⟨?_, .inl rfl⟩
    obtain ⟨delta, w₁, -, hrest⟩ := Decoder.bind_eq_ok.1 hrecord
    split at hrest
    · cases hrest
    · obtain ⟨_, w₂, -, hrest⟩ := Decoder.bind_eq_ok.1 hrest
      cases hactive : b.active[rank + delta - 1]? with
      | none => rw [hactive] at hrest; cases hrest
      | some source =>
        obtain ⟨source, type⟩ := source
        rw [hactive] at hrest
        obtain ⟨found, w₃, -, hrest⟩ := Decoder.bind_eq_ok.1 hrest
        obtain ⟨decoded, w₄, hdecoded, hpure⟩ := Decoder.bind_eq_ok.1 hrest
        cases hpure
        exact ⟨type, hactive, scalar_stored type _ _ _ hdecoded⟩

/-- **What a step of the walk delivers.** Each scalar has the source ID of its rank in the active
table, and a value that is stored as the type there. -/
theorem walkStep_delivered (b : Body) (bulk : Bool) (w : Walk) :
    AllDelivered b.types b.active ids (walkStep b bulk w).1 := by
  unfold walkStep
  split
  · refine .after fun kind wire _ => ?_
    split
    · split
      · exact .finish _ []
      · exact .finish _ _
    · exact .after fun _ _ _ => .enter _ _ _ _
    · exact .after fun _ _ _ => .enter _ _ _ _
    · exact .ticks _ _
    · split
      · exact .nil
      · exact .ticks _ _
  · split
    · next id type hactive =>
      exact .after fun value wire hvalue =>
        .one ⟨⟨type, hactive, scalar_stored type _ _ _ hvalue⟩, .inl rfl⟩
    · exact .after fun _ _ _ => .listEnd _ _
  · next time rank _ =>
    split
    · refine .after fun bytes wire _ => ?_
      refine .after fun _ wire' _ => ?_
      split
      · exact window_delivered b _ _ _ _ _ _ _ _
      · exact cycleStep_delivered b _ _ _
    · exact cycleStep_delivered b w time rank
  · refine .after fun delta wire _ => ?_
    split
    · exact .after fun _ _ _ => .nil
    · split
      · exact .nil
      · split
        · exact .nil
        · exact .enter _ _ _ _
  · exact .after fun _ _ _ => .nil
  · exact .after fun _ _ _ => .finish _ []

end

end Ondas.Ghw
