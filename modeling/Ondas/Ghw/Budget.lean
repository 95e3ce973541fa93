import Ondas.Ghw.Index

/-!
# The budget of the position index

The accounts of an index are right when `allocated` is the sum of the capacities of all its arrays
and within the limit (`Index.Accounted`). `growFrames` and `growStream` make room and keep the
accounts, and all appends are into room that was made, so that no operation that returns true
overdraws the budget.

What an operation does to the contents of an index is what it does to one of its groups (`Group`).
The operations are followed once, for the accounts and for the contents (`Index.Changes`).
-/

namespace Ondas.Ghw

open Library

namespace Index

/-! ## Groups -/

/-- What an index keeps for a group of ranks. -/
structure Group where
  ids : List UInt8
  offs : List UInt8
  lastFrame : Nat
  lastOffset : Nat
  pendingDelta : Nat
  pendingRun : Nat

namespace Group

/-- A group without frames. -/
def initial : Group := ⟨[], [], noFrame, 0, 0, 0⟩

/-- The group without a run that is pending. -/
def flush (s : Group) : Group :=
  if s.pendingRun = 0 then s
  else { s with ids := s.ids ++ (encode s.pendingDelta ++ encode s.pendingRun), pendingRun := 0 }

/-- A group that gets a frame, and the bytes to append to its frame numbers. -/
def recordFrame (frame : Nat) (s : Group) : List UInt8 × Group :=
  if s.lastFrame = noFrame then (encode frame, s)
  else if frame - s.lastFrame = s.pendingDelta then
    ([], { s with pendingRun := s.pendingRun + 1 })
  else ([], { s.flush with pendingDelta := frame - s.lastFrame, pendingRun := 1 })

/-- A group that gets a position. -/
def record (frame offset first : Nat) (s : Group) : Group :=
  let (bytes, s) := s.recordFrame frame
  { s with
    ids := s.ids ++ bytes
    offs := s.offs ++ (encode (offset - s.lastOffset) ++ encode first)
    lastFrame := frame
    lastOffset := offset }

/-- The run that is pending fits into the words of a run. -/
structure Small (s : Group) : Prop where
  delta : s.pendingDelta < 2 ^ 32
  run : s.pendingRun + 1 < 2 ^ 32

/-- A group may get a frame. -/
structure Before (frame : Nat) (s : Group) : Prop extends Small s where
  frame : s.lastFrame = noFrame ∨ s.lastFrame ≤ frame

/-- A group may get a position. -/
structure Ready (frame offset : Nat) (s : Group) : Prop extends Before frame s where
  offset : s.lastOffset ≤ offset

@[simp] theorem flush_lastOffset (s : Group) : s.flush.lastOffset = s.lastOffset := by
  unfold flush
  split <;> rfl

/-- A frame is recorded without a change of the last position. -/
@[simp] theorem recordFrame_lastOffset (frame : Nat) (s : Group) :
    (s.recordFrame frame).2.lastOffset = s.lastOffset := by
  unfold recordFrame
  split
  · rfl
  · split
    · rfl
    · exact s.flush_lastOffset

end Group

/-- The contents of a group of an index. -/
structure Has (x : Index) (g : Nat) (s : Group) : Prop where
  ids : ∃ v, x.ids.items[g]? = some v ∧ v.items = s.ids
  offs : ∃ v, x.offs.items[g]? = some v ∧ v.items = s.offs
  lastFrame : x.lastFrame.items[g]? = some s.lastFrame
  lastOffset : x.lastOffset.items[g]? = some s.lastOffset
  pendingDelta : x.pendingDelta.items[g]? = some s.pendingDelta
  pendingRun : x.pendingRun.items[g]? = some s.pendingRun

/-- All capacities of an index, in bytes. -/
def reserved (x : Index) : Nat :=
  x.retained + (x.lastFrame.capacity + x.pendingDelta.capacity + x.pendingRun.capacity) * 4 +
    x.lastOffset.capacity * 8

/-- What is allocated is what is reserved, and within the limit. -/
structure Accounted (x : Index) : Prop where
  allocated : x.allocated = x.reserved
  within : x.allocated ≤ x.limit

/-- The accounts stay right, a group changes and the rest stays the same. -/
structure Changes (g : Nat) (rel : Group → Group → Prop) (x x' : Index) : Prop where
  accounted : x'.Accounted
  group : ∀ s, x.Has g s → ∃ s', rel s s' ∧ x'.Has g s'
  others : ∀ g' s, g' ≠ g → x.Has g' s → x'.Has g' s
  frames : x'.frames = x.frames
  limit : x'.limit = x.limit
  isOpen : x'.isOpen = x.isOpen
  current : x'.current = x.current
  lastGroup : x'.lastGroup = x.lastGroup
  groups : x'.ids.items.length = x.ids.items.length
  columns : x'.lastFrame.items.length = x.lastFrame.items.length

section
variable {x x' x'' : Index} {g : Nat} {rel rel' : Group → Group → Prop}

theorem Changes.refl (h : x.Accounted) : Changes g (fun s s' => s' = s) x x :=
  ⟨h, fun s hs => ⟨s, rfl, hs⟩, fun _ _ _ hs => hs, rfl, rfl, rfl, rfl, rfl, rfl, rfl⟩

/-- Two changes of the same group after each other. -/
theorem Changes.trans (h : Changes g rel x x') (h' : Changes g rel' x' x'') :
    Changes g (fun s s'' => ∃ s', rel s s' ∧ rel' s' s'') x x'' where
  accounted := h'.accounted
  group s hs := by
    obtain ⟨s', hrel, hs'⟩ := h.group s hs
    obtain ⟨s'', hrel', hs''⟩ := h'.group s' hs'
    exact ⟨s'', ⟨s', hrel, hrel'⟩, hs''⟩
  others g' s hne hs := h'.others g' s hne (h.others g' s hne hs)
  frames := h'.frames.trans h.frames
  limit := h'.limit.trans h.limit
  isOpen := h'.isOpen.trans h.isOpen
  current := h'.current.trans h.current
  lastGroup := h'.lastGroup.trans h.lastGroup
  groups := h'.groups.trans h.groups
  columns := h'.columns.trans h.columns

/-- What is said of a change may be said otherwise, for the group as it is. -/
theorem Changes.imp (h : Changes g rel x x') (himp : ∀ s s', x.Has g s → rel s s' → rel' s s') :
    Changes g rel' x x' :=
  { h with
    group := fun s hs =>
      let ⟨s', hrel, hs'⟩ := h.group s hs
      ⟨s', himp s s' hs hrel, hs'⟩ }

end

/-! ## Words and items -/

section
variable {E : Fault → Prop} {α : Type}

/-- A lookup inside the list succeeds, and outside it may only fail where bounds may. -/
theorem item_settles {items : List α} {i : Nat} (h : i < items.length ∨ E .bounds) :
    Settles (fun a => items[i]? = some a) E (item items i) := by
  unfold item
  cases hget : items[i]? with
  | none =>
    exact h.elim (fun hlt => absurd (List.getElem?_eq_none_iff.1 hget) (Nat.not_le.2 hlt)) id
  | some a => rfl

/-- An append within the capacity keeps the capacity, so it takes no memory. -/
theorem append_settles {v : Vec α} {more : List α} (h : v.items.length + more.length ≤ v.capacity) :
    Settles (fun v' => v'.items = v.items ++ more ∧ v'.capacity = v.capacity) E
      (append v more) := by
  obtain ⟨v', happend, hitems, hcapacity⟩ := Vec.append_eq_some h
  unfold append
  rw [happend]
  exact ⟨hitems, hcapacity⟩

/-- A sum within its bits is exact; one outside them fails or wraps as the build says. -/
theorem add_settles {checked : Bool} {bits a b : Nat} (h : a + b < 2 ^ bits ∨ E .arithmetic) :
    Settles (fun c => a + b < 2 ^ bits → c = a + b) E (add checked bits a b) := by
  unfold add
  split
  · exact fun _ => rfl
  · next hlt =>
    split
    · exact h.resolve_left hlt
    · exact fun h => absurd h hlt

/-- A difference does not wrap when the subtrahend is not greater. -/
theorem sub_settles {checked : Bool} {bits a b : Nat} (h : b ≤ a ∨ E .arithmetic) :
    Settles (fun c => b ≤ a → c = a - b) E (sub checked bits a b) := by
  unfold sub
  split
  · exact fun _ => rfl
  · next hle =>
    split
    · exact h.resolve_left hle
    · exact fun h => absurd h hle

/-- What is left of the budget does not wrap while the account is within it. -/
theorem remaining_settles {limit allocated : Nat} (h : allocated ≤ limit) :
    Settles (fun c => c = limit - allocated) E (remaining limit allocated) := by
  unfold remaining
  rw [if_pos h]
  rfl

/-! ## Growth -/

/-- A stream grows by what is allocated for it, and has room then. -/
theorem growStream_settles {stream : Vec UInt8} {needed limit allocated : Nat} {answers : Allocator}
    (hwithin : allocated ≤ limit) :
    Settles (fun r => r.2.stream.items = stream.items ∧
      r.2.allocated + stream.capacity = allocated + r.2.stream.capacity ∧
        (r.1 = true → r.2.allocated ≤ limit ∧
          stream.items.length + needed ≤ r.2.stream.capacity)) E
      (growStream stream needed limit allocated answers) := by
  unfold growStream
  refine .ite (fun hroom => ⟨rfl, rfl, fun _ => ⟨hwithin, hroom⟩⟩) fun _ => ?_
  refine (remaining_settles hwithin).bind fun remaining hremaining => ?_
  refine .ite (fun _ => ⟨rfl, rfl, nofun⟩) fun hneeded => ?_
  dsimp only
  split
  · exact ⟨rfl, rfl, nofun⟩
  · next grown hgrown =>
    obtain ⟨hitems, hcapacity, hroom⟩ := Vec.reserve_eq_some hgrown
    have hchunk :
        needed ≤ min (max (max needed ((stream.capacity + 1) / 2)) streamStart) remaining :=
      le_min ((le_max_left _ _).trans (le_max_left _ _)) (Nat.le_of_not_lt hneeded)
    refine ⟨hitems, ?_, fun hwithin' => ⟨of_decide_eq_true hwithin', ?_⟩⟩
    · show allocated + (grown.capacity - stream.capacity) + stream.capacity =
        allocated + grown.capacity
      omega
    · exact (Nat.add_le_add_left hchunk _).trans hroom

variable {x : Index} {g needed : Nat}

/-- The frame numbers of a group are replaced. -/
theorem ids_changes {v v' : Vec UInt8} (hv : x.ids.items[g]? = some v) {allocated : Nat}
    {answers : Allocator} (haccounted : Accounted { x with
      ids := x.ids.set g v', allocated := allocated, answers := answers }) :
    Changes g (fun s s' => s.ids = v.items ∧ s' = { s with ids := v'.items }) x
      { x with ids := x.ids.set g v', allocated := allocated, answers := answers } where
  accounted := haccounted
  group s hs := by
    obtain ⟨w, hw, hitems⟩ := hs.ids
    cases hv.symm.trans hw
    exact ⟨_, ⟨hitems.symm, rfl⟩, { hs with ids := ⟨v', Vec.set_same hv v', rfl⟩ }⟩
  others g' s hne hs := by
    obtain ⟨w, hw, hitems⟩ := hs.ids
    exact { hs with ids := ⟨w, (Vec.set_other hne v').trans hw, hitems⟩ }
  frames := rfl
  limit := rfl
  isOpen := rfl
  current := rfl
  lastGroup := rfl
  groups := List.length_set
  columns := rfl

/-- The positions of a group are replaced. -/
theorem offs_changes {v v' : Vec UInt8} (hv : x.offs.items[g]? = some v) {allocated : Nat}
    {answers : Allocator} (haccounted : Accounted { x with
      offs := x.offs.set g v', allocated := allocated, answers := answers }) :
    Changes g (fun s s' => s.offs = v.items ∧ s' = { s with offs := v'.items }) x
      { x with offs := x.offs.set g v', allocated := allocated, answers := answers } where
  accounted := haccounted
  group s hs := by
    obtain ⟨w, hw, hitems⟩ := hs.offs
    cases hv.symm.trans hw
    exact ⟨_, ⟨hitems.symm, rfl⟩, { hs with offs := ⟨v', Vec.set_same hv v', rfl⟩ }⟩
  others g' s hne hs := by
    obtain ⟨w, hw, hitems⟩ := hs.offs
    exact { hs with offs := ⟨w, (Vec.set_other hne v').trans hw, hitems⟩ }
  frames := rfl
  limit := rfl
  isOpen := rfl
  current := rfl
  lastGroup := rfl
  groups := rfl
  columns := rfl

/-- The accounts with another stream of frame numbers. -/
theorem Accounted.ids (h : x.Accounted) {v v' : Vec UInt8} (hv : x.ids.items[g]? = some v)
    {allocated : Nat} {answers : Allocator}
    (hallocated : allocated + v.capacity = x.allocated + v'.capacity)
    (hwithin : allocated ≤ x.limit) :
    Accounted { x with ids := x.ids.set g v', allocated := allocated, answers := answers } where
  allocated := by
    have hsum := Vec.sum_map_set Vec.capacity hv v'
    have haccounts := h.allocated
    unfold reserved retained at haccounts ⊢
    dsimp only [Vec.set_items, Vec.set_capacity]
    omega
  within := hwithin

/-- The accounts with another stream of positions. -/
theorem Accounted.offs (h : x.Accounted) {v v' : Vec UInt8} (hv : x.offs.items[g]? = some v)
    {allocated : Nat} {answers : Allocator}
    (hallocated : allocated + v.capacity = x.allocated + v'.capacity)
    (hwithin : allocated ≤ x.limit) :
    Accounted { x with offs := x.offs.set g v', allocated := allocated, answers := answers } where
  allocated := by
    have hsum := Vec.sum_map_set Vec.capacity hv v'
    have haccounts := h.allocated
    unfold reserved retained at haccounts ⊢
    dsimp only [Vec.set_items, Vec.set_capacity]
    omega
  within := hwithin

/-- Frame numbers that grew have room, and are the same. -/
theorem growIds_settles (h : x.Accounted) (hg : g < x.ids.items.length ∨ E .bounds) :
    Settles (fun r => r.1 = true → Changes g (fun s s' => s' = s) x r.2 ∧ r.2.offs = x.offs ∧
      ∃ v, r.2.ids.items[g]? = some v ∧ v.items.length + needed ≤ v.capacity) E
      (x.growIds g needed) := by
  unfold growIds
  refine (item_settles hg).bind fun stream hstream => ?_
  refine (growStream_settles h.within).bind fun r hr => ?_
  obtain ⟨grown, out⟩ := r
  obtain ⟨hitems, hallocated, hgrown⟩ := hr
  rintro rfl
  obtain ⟨hwithin, hroom⟩ := hgrown rfl
  refine ⟨(ids_changes hstream (h.ids hstream hallocated hwithin)).imp ?_, rfl, out.stream,
    Vec.set_same hstream _, ?_⟩
  · rintro s s' - ⟨hids, rfl⟩
    rw [hitems, ← hids]
  · rwa [hitems]

/-- Positions that grew have room, and are the same. -/
theorem growOffs_settles (h : x.Accounted) (hg : g < x.offs.items.length ∨ E .bounds) :
    Settles (fun r => r.1 = true → Changes g (fun s s' => s' = s) x r.2 ∧ r.2.ids = x.ids ∧
      ∃ v, r.2.offs.items[g]? = some v ∧ v.items.length + needed ≤ v.capacity) E
      (x.growOffs g needed) := by
  unfold growOffs
  refine (item_settles hg).bind fun stream hstream => ?_
  refine (growStream_settles h.within).bind fun r hr => ?_
  obtain ⟨grown, out⟩ := r
  obtain ⟨hitems, hallocated, hgrown⟩ := hr
  rintro rfl
  obtain ⟨hwithin, hroom⟩ := hgrown rfl
  refine ⟨(offs_changes hstream (h.offs hstream hallocated hwithin)).imp ?_, rfl, out.stream,
    Vec.set_same hstream _, ?_⟩
  · rintro s s' - ⟨hoffs, rfl⟩
    rw [hitems, ← hoffs]
  · rwa [hitems]

/-- Frame numbers that have room take bytes. -/
theorem extendIds_settles {bytes : List UInt8} (h : x.Accounted)
    (hroom : ∃ v, x.ids.items[g]? = some v ∧ v.items.length + bytes.length ≤ v.capacity) :
    Settles (fun x' => Changes g (fun s s' => s' = { s with ids := s.ids ++ bytes }) x x' ∧
      x'.offs = x.offs) E (x.extendIds g bytes) := by
  obtain ⟨v, hv, hroom⟩ := hroom
  unfold extendIds
  refine (item_settles (.inl (List.getElem?_eq_some_iff.1 hv).1)).bind fun stream hstream => ?_
  cases hv.symm.trans hstream
  refine (append_settles hroom).bind fun v' hv' => ?_
  obtain ⟨hitems, hcapacity⟩ := hv'
  refine ⟨(ids_changes hv (h.ids hv (by rw [hcapacity]) h.within)).imp ?_, rfl⟩
  rintro s s' - ⟨hids, rfl⟩
  rw [hitems, hids]

/-- Positions that have room take bytes. -/
theorem extendOffs_settles {bytes : List UInt8} (h : x.Accounted)
    (hroom : ∃ v, x.offs.items[g]? = some v ∧ v.items.length + bytes.length ≤ v.capacity) :
    Settles (fun x' => Changes g (fun s s' => s' = { s with offs := s.offs ++ bytes }) x x' ∧
      x'.ids = x.ids) E (x.extendOffs g bytes) := by
  obtain ⟨v, hv, hroom⟩ := hroom
  unfold extendOffs
  refine (item_settles (.inl (List.getElem?_eq_some_iff.1 hv).1)).bind fun stream hstream => ?_
  cases hv.symm.trans hstream
  refine (append_settles hroom).bind fun v' hv' => ?_
  obtain ⟨hitems, hcapacity⟩ := hv'
  refine ⟨(offs_changes hv (h.offs hv (by rw [hcapacity]) h.within)).imp ?_, rfl⟩
  rintro s s' - ⟨hoffs, rfl⟩
  rw [hitems, hoffs]

/-! ## Columns -/

/-- The run that is pending is replaced. -/
theorem run_changes (h : x.Accounted) (run : Nat) :
    Changes g (fun s s' => s' = { s with pendingRun := run }) x
      { x with pendingRun := x.pendingRun.set g run } where
  accounted := ⟨h.allocated, h.within⟩
  group _ hs := ⟨_, rfl, { hs with pendingRun := Vec.set_same hs.pendingRun run }⟩
  others _ _ hne hs := { hs with pendingRun := (Vec.set_other hne run).trans hs.pendingRun }
  frames := rfl
  limit := rfl
  isOpen := rfl
  current := rfl
  lastGroup := rfl
  groups := rfl
  columns := rfl

/-- The difference that is pending is replaced. -/
theorem delta_changes (h : x.Accounted) (delta : Nat) :
    Changes g (fun s s' => s' = { s with pendingDelta := delta }) x
      { x with pendingDelta := x.pendingDelta.set g delta } where
  accounted := ⟨h.allocated, h.within⟩
  group _ hs := ⟨_, rfl, { hs with pendingDelta := Vec.set_same hs.pendingDelta delta }⟩
  others _ _ hne hs := { hs with pendingDelta := (Vec.set_other hne delta).trans hs.pendingDelta }
  frames := rfl
  limit := rfl
  isOpen := rfl
  current := rfl
  lastGroup := rfl
  groups := rfl
  columns := rfl

/-- The last position is replaced. -/
theorem last_changes (h : x.Accounted) (frame offset : Nat) :
    Changes g (fun s s' => s' = { s with lastFrame := frame, lastOffset := offset }) x
      { x with lastFrame := x.lastFrame.set g frame, lastOffset := x.lastOffset.set g offset } where
  accounted := ⟨h.allocated, h.within⟩
  group _ hs := ⟨_, rfl, { hs with
    lastFrame := Vec.set_same hs.lastFrame frame
    lastOffset := Vec.set_same hs.lastOffset offset }⟩
  others _ _ hne hs := { hs with
    lastFrame := (Vec.set_other hne frame).trans hs.lastFrame
    lastOffset := (Vec.set_other hne offset).trans hs.lastOffset }
  frames := rfl
  limit := rfl
  isOpen := rfl
  current := rfl
  lastGroup := rfl
  groups := rfl
  columns := List.length_set

/-! ## Recording -/

/-- The faults that a build may end with when ranks or offsets are not in order. -/
def Lax (E : Fault → Prop) : Prop := E .bounds ∧ E .arithmetic

/-- A word of fewer bits takes fewer bytes. -/
theorem encodeLoop_small (left : Nat) : ∀ more value, value < 2 ^ (7 * (left + 1)) →
    (encodeLoop (left + more) value).length ≤ left + 1 := by
  induction left with
  | zero =>
    intro more value hvalue
    cases more with
    | zero => exact Nat.le_refl 1
    | succ more =>
      have hsmall : value < 128 := Nat.lt_of_lt_of_eq hvalue rfl
      rw [Nat.zero_add, encodeLoop, if_neg (Nat.not_le.2 hsmall)]
      exact Nat.le_refl 1
  | succ left ih =>
    intro more value hvalue
    have hshift : value >>> 7 < 2 ^ (7 * (left + 1)) := by
      rw [Nat.shiftRight_eq_div_pow]
      refine Nat.div_lt_of_lt_mul (hvalue.trans_eq ?_)
      rw [← Nat.pow_add, Nat.mul_succ, Nat.add_comm]
    rw [Nat.add_right_comm, encodeLoop]
    split
    · exact Nat.succ_le_succ (ih more _ hshift)
    · exact Nat.le_add_left 1 _

/-- A word of 32 bits takes at most five bytes. -/
theorem length_encode_le {value : Nat} (h : value < 2 ^ 32) : (encode value).length ≤ 5 :=
  encodeLoop_small 4 5 value (h.trans (by decide))

section
variable {s : Group}

theorem Has.ids_lt (h : x.Has g s) : g < x.ids.items.length :=
  let ⟨_, hget, _⟩ := h.ids
  (List.getElem?_eq_some_iff.1 hget).1

theorem Has.offs_lt (h : x.Has g s) : g < x.offs.items.length :=
  let ⟨_, hget, _⟩ := h.offs
  (List.getElem?_eq_some_iff.1 hget).1

theorem Has.lastFrame_lt (h : x.Has g s) : g < x.lastFrame.items.length :=
  (List.getElem?_eq_some_iff.1 h.lastFrame).1

theorem Has.lastOffset_lt (h : x.Has g s) : g < x.lastOffset.items.length :=
  (List.getElem?_eq_some_iff.1 h.lastOffset).1

theorem Has.pendingDelta_lt (h : x.Has g s) : g < x.pendingDelta.items.length :=
  (List.getElem?_eq_some_iff.1 h.pendingDelta).1

theorem Has.pendingRun_lt (h : x.Has g s) : g < x.pendingRun.items.length :=
  (List.getElem?_eq_some_iff.1 h.pendingRun).1

end

/-- The run of a group is written. -/
theorem flush_settles (h : x.Accounted) (hg : (∃ s, x.Has g s ∧ s.Small) ∨ E .bounds) :
    Settles (fun r => r.1 = true → Changes g (fun s s' => s' = s.flush) x r.2) E (x.flush g) := by
  unfold flush
  refine (item_settles (hg.imp_left fun ⟨s, hs, _⟩ => hs.pendingRun_lt)).bind fun run hrun => ?_
  have hrun' : ∀ s, x.Has g s → s.pendingRun = run := fun s hs =>
    Option.some.inj (hs.pendingRun.symm.trans hrun)
  refine .ite (fun hzero _ => (Changes.refl h).imp ?_) fun hne => ?_
  · rintro s s' hs rfl
    rw [Group.flush, if_pos ((hrun' _ hs).trans hzero)]
  refine (item_settles (hg.imp_left fun ⟨s, hs, _⟩ => hs.pendingDelta_lt)).bind fun delta hdelta =>
    ?_
  have hdelta' : ∀ s, x.Has g s → s.pendingDelta = delta := fun s hs =>
    Option.some.inj (hs.pendingDelta.symm.trans hdelta)
  dsimp only
  refine .ite (fun hlong => ?_) fun _ => ?_
  · -- The buffer is as long as two words of 32 bits.
    rcases hg with ⟨s, hs, hsmall⟩ | hbounds
    · have hdeltaLen := length_encode_le (hdelta' s hs ▸ hsmall.delta)
      have hrunLen := length_encode_le (hrun' s hs ▸ (Nat.lt_of_succ_lt hsmall.run))
      rw [List.length_append] at hlong
      omega
    · exact hbounds
  refine (growIds_settles h (hg.imp_left fun ⟨s, hs, _⟩ => hs.ids_lt)).bind fun r hr => ?_
  obtain ⟨grown, y⟩ := r
  refine .ite (fun htrue => ?_) fun _ => nofun
  obtain ⟨hsame, -, hroom⟩ := hr htrue
  refine (extendIds_settles hsame.accounted hroom).bind fun z hz _ => ?_
  refine ((hsame.trans hz.1).trans (run_changes hz.1.accounted 0)).imp ?_
  rintro s s' hs ⟨_, ⟨_, rfl, rfl⟩, rfl⟩
  rw [Group.flush, if_neg fun hzero => hne ((hrun' _ hs).symm.trans hzero), hrun' _ hs,
    hdelta' _ hs]

/-- The frame number of a group is taken. -/
theorem recordFrame_settles {checked : Bool} (h : x.Accounted)
    (hg : (∃ s, x.Has g s ∧ s.Before x.current) ∨ Lax E) :
    Settles (fun r => r.1 = true → Changes g (fun s s' => s.Before x.current →
      (r.2.1, s') = s.recordFrame x.current) x r.2.2) E (x.recordFrame checked g) := by
  unfold recordFrame
  have hg' : (∃ s, x.Has g s ∧ s.Small) ∨ E .bounds :=
    hg.imp (fun ⟨s, hs, hbefore⟩ => ⟨s, hs, hbefore.toSmall⟩) And.left
  refine (item_settles (hg'.imp_left fun ⟨s, hs, _⟩ => hs.lastFrame_lt)).bind fun last hlast => ?_
  have hlast' : ∀ s, x.Has g s → s.lastFrame = last := fun s hs =>
    Option.some.inj (hs.lastFrame.symm.trans hlast)
  refine .ite (fun hfirst _ => (Changes.refl h).imp ?_) fun hnext => ?_
  · rintro s s' hs rfl -
    rw [Group.recordFrame, if_pos ((hlast' _ hs).trans hfirst)]
  have hle : ∀ s, x.Has g s → s.Before x.current → last ≤ x.current := fun s hs hbefore =>
    hlast' s hs ▸ hbefore.frame.resolve_left fun hno => hnext ((hlast' s hs).symm.trans hno)
  refine (sub_settles (hg.imp (fun ⟨s, hs, hbefore⟩ => hle s hs hbefore) And.right)).bind
    fun delta hdelta => ?_
  refine (item_settles (hg'.imp_left fun ⟨s, hs, _⟩ => hs.pendingDelta_lt)).bind
    fun pending hpending => ?_
  have hpending' : ∀ s, x.Has g s → s.pendingDelta = pending := fun s hs =>
    Option.some.inj (hs.pendingDelta.symm.trans hpending)
  refine .ite (fun hsame => ?_) fun hother => ?_
  · refine (item_settles (hg'.imp_left fun ⟨s, hs, _⟩ => hs.pendingRun_lt)).bind fun run hrun => ?_
    have hrun' : ∀ s, x.Has g s → s.pendingRun = run := fun s hs =>
      Option.some.inj (hs.pendingRun.symm.trans hrun)
    refine (add_settles (hg.imp (fun ⟨s, hs, hbefore⟩ => hrun' s hs ▸ hbefore.run) And.right)).bind
      fun run' hadd _ => (run_changes h run').imp ?_
    rintro s s' hs rfl hbefore
    have hdelta' := hdelta (hle s hs hbefore)
    rw [Group.recordFrame, if_neg fun hno => hnext ((hlast' s hs).symm.trans hno), hlast' s hs,
      hpending' s hs, if_pos (hdelta'.symm.trans hsame), hadd (hrun' s hs ▸ hbefore.run),
      hrun' s hs]
  · refine (flush_settles h hg').bind fun r hr => ?_
    obtain ⟨flushed, y⟩ := r
    refine .ite (fun htrue _ => ?_) fun _ => nofun
    have hflush := hr htrue
    have hrun := run_changes (g := g) hflush.accounted 1
    refine ((hflush.trans hrun).trans (delta_changes hrun.accounted delta)).imp ?_
    rintro s s' hs ⟨_, ⟨_, rfl, rfl⟩, rfl⟩ hbefore
    have hdelta' := hdelta (hle s hs hbefore)
    rw [Group.recordFrame, if_neg fun hno => hnext ((hlast' s hs).symm.trans hno), hlast' s hs,
      hpending' s hs, if_neg fun heq => hother (hdelta'.trans heq), hdelta']

/-- A position is recorded. -/
theorem record_settles {checked : Bool} {rank offset : Nat} (h : x.Accounted)
    (hg : (∃ s, x.Has g s ∧ s.Ready x.current offset) ∨ Lax E) :
    Settles (fun r => r.1 = true → Changes g (fun s s' => s.Ready x.current offset →
      s' = s.record x.current offset (rank % ranksPerGroup)) x r.2) E
      (x.record checked g rank offset) := by
  unfold record
  have hg' : (∃ s, x.Has g s ∧ s.Before x.current) ∨ Lax E :=
    hg.imp_left fun ⟨s, hs, hready⟩ => ⟨s, hs, hready.toBefore⟩
  refine (recordFrame_settles h hg').bind fun r hr => ?_
  obtain ⟨recorded, bytes, y⟩ := r
  refine .ite (fun htrue => ?_) fun _ => nofun
  have hframe := hr htrue
  -- The group after its first half.
  have hgroup : ∀ s, x.Has g s → s.Ready x.current offset →
      y.Has g (s.recordFrame x.current).2 := by
    intro s hs hready
    obtain ⟨s', hrel, hs'⟩ := hframe.group s hs
    rwa [← hrel hready.toBefore]
  have hy : (∃ s, y.Has g s) ∨ E .bounds :=
    hg.imp (fun ⟨s, hs, hready⟩ => ⟨_, hgroup s hs hready⟩) And.left
  refine (item_settles (hy.imp_left fun ⟨s, hs⟩ => hs.lastOffset_lt)).bind fun last hlast => ?_
  have hlast' : ∀ s, x.Has g s → s.Ready x.current offset → s.lastOffset = last :=
    fun s hs hready =>
    (Group.recordFrame_lastOffset _ s).symm.trans
      (Option.some.inj ((hgroup s hs hready).lastOffset.symm.trans hlast))
  refine (sub_settles (hg.imp (fun ⟨s, hs, hready⟩ => hlast' s hs hready ▸ hready.offset)
    And.right)).bind fun delta hdelta => ?_
  refine (growOffs_settles hframe.accounted (hy.imp_left fun ⟨s, hs⟩ => hs.offs_lt)).bind
    fun r hr => ?_
  obtain ⟨grown, z⟩ := r
  refine .ite (fun htrue => ?_) fun _ => nofun
  obtain ⟨hoffs, hids, hroomOffs⟩ := hr htrue
  have hz : g < z.ids.items.length ∨ E .bounds := by
    rw [hids]
    exact hy.imp_left fun ⟨s, hs⟩ => hs.ids_lt
  refine (growIds_settles hoffs.accounted hz).bind fun r hr => ?_
  obtain ⟨grown, w⟩ := r
  refine .ite (fun htrue => ?_) fun _ => nofun
  obtain ⟨hids', hoffs', hroomIds⟩ := hr htrue
  rw [← hoffs'] at hroomOffs
  refine (extendOffs_settles hids'.accounted hroomOffs).bind fun u hu => ?_
  obtain ⟨hu, huids⟩ := hu
  rw [← huids] at hroomIds
  refine (extendIds_settles hu.accounted hroomIds).bind fun t ht _ => ?_
  obtain ⟨ht, -⟩ := ht
  have hcurrent : t.current = x.current := ht.current.trans (hu.current.trans (hids'.current.trans
    (hoffs.current.trans hframe.current)))
  refine (((((hframe.trans hoffs).trans hids').trans hu).trans ht).trans
    (last_changes ht.accounted t.current offset)).imp ?_
  rintro s s' hs ⟨_, ⟨_, ⟨_, ⟨_, ⟨s₁, hrel, rfl⟩, rfl⟩, rfl⟩, rfl⟩, rfl⟩ hready
  have hrel' := hrel hready.toBefore
  rw [Group.record, ← hrel', hdelta (hlast' s hs hready ▸ hready.offset),
    ← hlast' s hs hready, hcurrent,
    ← Group.recordFrame_lastOffset x.current s, ← hrel']

/-! ## Frames -/

/-- Frames that grew have room, and are the same. -/
theorem growFrames_settles (h : x.Accounted) :
    Settles (fun r => r.1 = true → ∃ (frames : Vec Frame) (allocated : Nat) (answers : Allocator),
      r.2 = { x with frames := frames, allocated := allocated, answers := answers } ∧
        frames.items = x.frames.items ∧ frames.items.length < frames.capacity ∧ r.2.Accounted) E
      x.growFrames := by
  unfold growFrames
  refine .ite (fun hroom _ => ⟨x.frames, x.allocated, x.answers, rfl, rfl, hroom, h⟩) fun hfull =>
    ?_
  refine (remaining_settles h.within).bind fun remaining _ => ?_
  dsimp only
  refine .ite (fun _ => nofun) fun hchunk => ?_
  split
  · exact nofun
  · next frames hframes =>
    obtain ⟨hitems, hcapacity, hroom⟩ := Vec.reserve_eq_some hframes
    intro hwithin
    refine ⟨frames, _, _, rfl, hitems, ?_, ?_, of_decide_eq_true hwithin⟩
    · rw [hitems]
      exact (Nat.lt_add_of_pos_right (Nat.pos_of_ne_zero hchunk)).trans_le hroom
    · have haccounts := h.allocated
      have hmul : (frames.capacity - x.frames.capacity) * frameBytes + x.frames.capacity *
          frameBytes =
          frames.capacity * frameBytes := by
        rw [← Nat.add_mul, Nat.sub_add_cancel hcapacity]
      unfold reserved retained at haccounts ⊢
      dsimp only
      omega

/-- An index with a new frame. -/
structure Opened (time : Nat) (cyclic : Bool) (x y : Index) : Prop where
  accounted : y.Accounted
  has : ∀ g s, x.Has g s → y.Has g s
  frames : y.frames.items = x.frames.items ++ [⟨time, cyclic⟩]
  limit : y.limit = x.limit
  isOpen : y.isOpen = true
  current : y.current = x.frames.items.length
  lastGroup : y.lastGroup = noGroup
  groups : y.ids.items.length = x.ids.items.length
  columns : y.lastFrame.items.length = x.lastFrame.items.length

/-- The index of which a push is part of a frame. -/
def Starts (time : Nat) (cyclic : Bool) (x y : Index) : Prop :=
  if x.isOpen then y = x else Opened time cyclic x y

/-- A rank that enters an open frame. -/
def Enters (rank offset : Nat) (y x' : Index) : Prop :=
  if rank / ranksPerGroup = y.lastGroup then x' = y
  else Changes (rank / ranksPerGroup) (fun s s' => s.Ready y.current offset →
    s' = s.record y.current offset (rank % ranksPerGroup))
      { y with lastGroup := rank / ranksPerGroup } x'

/-- The group of a rank may get its position. -/
def MayEnter (rank offset : Nat) (y : Index) : Prop :=
  rank / ranksPerGroup = y.lastGroup ∨
    ∃ s, y.Has (rank / ranksPerGroup) s ∧ s.Ready y.current offset

/-- Entering a record settles when its rank and position may be entered: it answers a record that is
entered, or stops for want of memory. -/
theorem enter_settles {checked : Bool} {rank offset : Nat} (h : x.Accounted)
    (hg : MayEnter rank offset x ∨ Lax E) :
    Settles (fun r => r.1 = true → Enters rank offset x r.2) E (x.enter checked rank offset) := by
  unfold enter Enters
  dsimp only
  refine .ite (fun hsame _ => ?_) fun hother => ?_
  · rw [if_pos hsame]
  · have hready : (∃ s, Has { x with lastGroup := rank / ranksPerGroup } (rank / ranksPerGroup) s ∧
        s.Ready x.current offset) ∨ Lax E := hg.imp_left fun hmay =>
      let ⟨s, hs, hready⟩ := hmay.resolve_left hother
      ⟨s, { hs with }, hready⟩
    have haccounted : Accounted { x with lastGroup := rank / ranksPerGroup } :=
      ⟨h.allocated, h.within⟩
    exact (record_settles haccounted hready).imp fun r hr htrue =>
      (if_neg hother).mpr (hr htrue)

/-- A rank that is pushed enters a frame. -/
theorem push_settles {checked cyclic : Bool} {rank time offset : Nat} (h : x.Accounted)
    (hg : (∀ y, Starts time cyclic x y → MayEnter rank offset y) ∨ Lax E) :
    Settles (fun r => r.1 = true → ∃ y, Starts time cyclic x y ∧ Enters rank offset y r.2) E
      (x.push checked rank time offset cyclic) := by
  unfold push
  refine .ite (fun _ => nofun) fun _ => ?_
  refine .ite (fun hopen => ?_) fun hclosed => ?_
  · have hstarts : Starts time cyclic x x := by rw [Starts, if_pos hopen]
    exact (enter_settles h (hg.imp_left fun hmay => hmay x hstarts)).imp fun r hr htrue =>
      ⟨x, hstarts, hr htrue⟩
  · refine (growFrames_settles h).bind fun r hr => ?_
    obtain ⟨grown, y⟩ := r
    refine .ite (fun htrue => ?_) fun _ => nofun
    obtain ⟨frames, allocated, answers, rfl, hitems, hroom, haccounted⟩ := hr htrue
    dsimp only
    refine .ite (fun _ => nofun) fun _ => ?_
    have hroom' : frames.items.length + [Frame.mk time cyclic].length ≤ frames.capacity := hroom
    refine (append_settles hroom').bind fun frames' hframes' => ?_
    obtain ⟨hitems', hcapacity⟩ := hframes'
    have hopened : Opened time cyclic x { x with
        frames := frames', allocated := allocated, answers := answers,
        current := frames.items.length, isOpen := true, lastGroup := noGroup } := by
      refine ⟨⟨?_, haccounted.within⟩, fun _ _ hs => { hs with },
        hitems'.trans (by rw [hitems]), rfl,
        rfl, congrArg _ hitems, rfl, rfl, rfl⟩
      have haccounts := haccounted.allocated
      unfold reserved retained at haccounts ⊢
      dsimp only at haccounts ⊢
      rw [hcapacity, haccounts]
    have hstarts : Starts time cyclic x _ := (if_neg hclosed).mpr hopened
    exact (enter_settles hopened.accounted (hg.imp_left fun hmay => hmay _ hstarts)).imp
      fun r hr htrue => ⟨_, hstarts, hr htrue⟩

/-! ## The end -/

/-- Some groups of an index are without a run that is pending. -/
structure Flushed (groups : List Nat) (x y : Index) : Prop where
  accounted : y.Accounted
  has : ∀ g s, x.Has g s → y.Has g (if g ∈ groups then s.flush else s)
  frames : y.frames = x.frames
  limit : y.limit = x.limit
  groups : y.ids.items.length = x.ids.items.length

/-- A run that was flushed is not flushed again. -/
theorem Group.flush_flush (s : Group) : s.flush.flush = s.flush := by
  have hzero : s.flush.pendingRun = 0 := by
    unfold Group.flush
    split
    · next hzero => exact hzero
    · rfl
  exact if_pos hzero

/-- Flushing keeps a group small. -/
theorem Group.flush_small {s : Group} (h : s.Small) : s.flush.Small := by
  unfold Group.flush
  split
  · exact h
  · exact ⟨h.delta, (by decide : 0 + 1 < 2 ^ 32)⟩

/-- Flushing all groups settles when each of them is small: they are all flushed, or memory ran
out. -/
theorem flushAll_settles (groups : List Nat) : ∀ x : Index, x.Accounted →
    ((∀ g ∈ groups, ∃ s, x.Has g s ∧ s.Small) ∨ E .bounds) →
    Settles (fun r => r.1 = true → Flushed groups x r.2) E (flushAll groups x) := by
  induction groups with
  | nil =>
    refine fun x h _ _ => ⟨h, fun g s hs => ?_, rfl, rfl, rfl⟩
    rwa [if_neg List.not_mem_nil]
  | cons g groups ih =>
    intro x h hg
    unfold flushAll
    refine (flush_settles h (hg.imp_left fun hg => hg g (.head _))).bind fun r hr => ?_
    obtain ⟨flushed, y⟩ := r
    refine .ite (fun htrue => ?_) fun _ => nofun
    have hflush := hr htrue
    have hy : (∀ g' ∈ groups, ∃ s, y.Has g' s ∧ s.Small) ∨ E .bounds := by
      refine hg.imp_left fun hg g' hg' => ?_
      obtain ⟨s, hs, hsmall⟩ := hg g' (.tail _ hg')
      by_cases heq : g' = g
      · subst heq
        obtain ⟨_, rfl, hs'⟩ := hflush.group s hs
        exact ⟨_, hs', Group.flush_small hsmall⟩
      · exact ⟨s, hflush.others g' s heq hs, hsmall⟩
    refine (ih y hflush.accounted hy).imp fun r hr htrue => ?_
    have hrest := hr htrue
    refine ⟨hrest.accounted, fun g' s hs => ?_, hrest.frames.trans hflush.frames,
      hrest.limit.trans hflush.limit, hrest.groups.trans hflush.groups⟩
    by_cases heq : g' = g
    · subst heq
      obtain ⟨_, rfl, hs'⟩ := hflush.group s hs
      have hrest' := hrest.has g' _ hs'
      rw [if_pos (.head _)]
      rwa [Group.flush_flush, ite_self] at hrest'
    · have hrest' := hrest.has g' s (hflush.others g' s heq hs)
      by_cases hmem : g' ∈ groups
      · rw [if_pos hmem] at hrest'
        rwa [if_pos (List.mem_cons_of_mem _ hmem)]
      · rw [if_neg hmem] at hrest'
        rwa [if_neg fun hmem' => (List.mem_cons.1 hmem').elim heq hmem]

/-- The bytes of a group. -/
def Stored (x : Index) (g : Nat) (ids offs : List UInt8) : Prop :=
  (∃ v, x.ids.items[g]? = some v ∧ v.items = ids) ∧ ∃ v, x.offs.items[g]? = some v ∧ v.items = offs

/-- An index that is complete. -/
structure Finished (x y : Index) : Prop where
  accounted : y.Accounted
  stored : ∀ g s, x.Has g s → y.Stored g s.flush.ids s.flush.offs
  frames : y.frames = x.frames
  limit : y.limit = x.limit
  groups : y.ids.items.length = x.ids.items.length

/-- An index that is complete has its runs written and gave its columns back. -/
theorem finish_settles (h : x.Accounted)
    (hg : (∀ g < x.ids.items.length, ∃ s, x.Has g s ∧ s.Small) ∨ E .bounds) :
    Settles (fun r => r.1 = true → Finished x r.2) E x.finish := by
  unfold finish
  refine .ite (fun hempty _ => ?_) fun _ => ?_
  · refine ⟨h, fun g s hs => ?_, rfl, rfl, rfl⟩
    have hlt := hs.lastFrame_lt
    rw [List.isEmpty_iff.1 hempty] at hlt
    exact absurd hlt (Nat.not_lt_zero _)
  · refine (flushAll_settles _ x h (hg.imp_left fun hg g hmem => hg g (List.mem_range.1 hmem))).bind
      fun r hr => ?_
    obtain ⟨flushed, y⟩ := r
    refine .ite (fun htrue _ => ?_) fun _ => nofun
    have hflushed := hr htrue
    refine ⟨⟨rfl, ?_⟩, fun g s hs => ?_, hflushed.frames, hflushed.limit, hflushed.groups⟩
    · have hretained : y.retained ≤ y.reserved := by
        unfold reserved
        omega
      exact (hretained.trans_eq hflushed.accounted.allocated.symm).trans hflushed.accounted.within
    · have hs' := hflushed.has g s hs
      rw [if_pos (List.mem_range.2 hs.ids_lt)] at hs'
      exact ⟨hs'.ids, hs'.offs⟩

/-! ## The beginning -/

/-- The number of groups. -/
def groupCount (active : Nat) : Nat := (active + (ranksPerGroup - 1)) / ranksPerGroup

/-- An index without frames. -/
structure Made (count limit : Nat) (x : Index) : Prop where
  accounted : x.Accounted
  limit : x.limit = limit
  frames : x.frames.items = []
  isOpen : x.isOpen = false
  has : ∀ g < count, x.Has g .initial
  groups : x.ids.items.length = count
  columns : x.lastFrame.items.length = count

/-- An index that is reserved is empty, accounts for what it reserved, and has room for its
groups. -/
theorem reserveAll_eq_some {count limit : Nat} {answers : Allocator}
    (h : reserveAll count limit answers = some x) : x.Accounted ∧ x.limit = limit ∧
      x.frames.items = [] ∧ x.isOpen = false ∧
      (x.ids.items = [] ∧ count ≤ x.ids.capacity) ∧ (x.offs.items = [] ∧ count ≤ x.offs.capacity) ∧
      (x.lastFrame.items = [] ∧ count ≤ x.lastFrame.capacity) ∧
      (x.lastOffset.items = [] ∧ count ≤ x.lastOffset.capacity) ∧
      (x.pendingDelta.items = [] ∧ count ≤ x.pendingDelta.capacity) ∧
      x.pendingRun.items = [] ∧ count ≤ x.pendingRun.capacity := by
  have hnew : ∀ {α : Type} {answer : Option Nat} {v : Vec α},
      Vec.empty.reserve count answer = some v → v.items = [] ∧ count ≤ v.capacity := by
    intro α answer v hv
    obtain ⟨hitems, -, hroom⟩ := Vec.reserve_eq_some hv
    exact ⟨hitems, (Nat.zero_add count).symm.trans_le hroom⟩
  unfold reserveAll at h
  obtain ⟨ids, hids, h⟩ := Option.bind_eq_some_iff.1 h
  obtain ⟨offs, hoffs, h⟩ := Option.bind_eq_some_iff.1 h
  obtain ⟨lastFrame, hlastFrame, h⟩ := Option.bind_eq_some_iff.1 h
  obtain ⟨lastOffset, hlastOffset, h⟩ := Option.bind_eq_some_iff.1 h
  obtain ⟨pendingDelta, hpendingDelta, h⟩ := Option.bind_eq_some_iff.1 h
  obtain ⟨pendingRun, hpendingRun, h⟩ := Option.bind_eq_some_iff.1 h
  dsimp only at h
  split at h
  · cases h
  · next hwithin =>
    cases h
    refine ⟨⟨?_, Nat.le_of_not_lt hwithin⟩, rfl, rfl, rfl, hnew hids, hnew hoffs, hnew hlastFrame,
      hnew hlastOffset, hnew hpendingDelta, hnew hpendingRun⟩
    unfold reserved retained Vec.empty
    dsimp only
    rw [(hnew hids).1, (hnew hoffs).1]
    simp only [List.map_nil, List.sum_nil]
    omega

/-- A new index has no frames, and no group has one. -/
theorem withLimit_settles {active limit : Nat} {answers : Allocator} :
    Settles (fun r => ∀ x, r = some x → Made (groupCount active) limit x) E
      (withLimit active limit answers) := by
  unfold withLimit
  dsimp only
  refine .ite (fun _ => nofun) fun _ => ?_
  split
  · exact nofun
  · next x hx =>
    obtain ⟨haccounted, hlimit, hframes, hopen, hids, hoffs, hlastFrame, hlastOffset, hpendingDelta,
      hpendingRun⟩ := reserveAll_eq_some hx
    have hfill : ∀ {α : Type} {v : Vec α} (a : α), v.items = [] ∧ groupCount active ≤ v.capacity →
        Settles (fun v' => v'.items = List.replicate (groupCount active) a ∧
          v'.capacity = v.capacity) E (append v (List.replicate (groupCount active) a)) := by
      intro α v a hv
      refine (append_settles ?_).imp fun v' hv' => ⟨hv'.1.trans (by rw [hv.1]; rfl), hv'.2⟩
      rw [hv.1, List.length_replicate, List.length_nil, Nat.zero_add]
      exact hv.2
    refine (hfill Vec.empty hids).bind fun ids' hids' => ?_
    refine (hfill Vec.empty hoffs).bind fun offs' hoffs' => ?_
    refine (hfill noFrame hlastFrame).bind fun lastFrame' hlastFrame' => ?_
    refine (hfill 0 hlastOffset).bind fun lastOffset' hlastOffset' => ?_
    refine (hfill 0 hpendingDelta).bind fun pendingDelta' hpendingDelta' => ?_
    refine (hfill 0 hpendingRun).bind fun pendingRun' hpendingRun' => ?_
    rintro _ ⟨⟩
    have hget : ∀ {α : Type} {v : Vec α} {a : α} {g : Nat},
        v.items = List.replicate (groupCount active) a → g < groupCount active →
          v.items[g]? = some a := by
      intro α v a g hv hlt
      rw [hv, List.getElem?_replicate, if_pos hlt]
    refine ⟨⟨?_, haccounted.within⟩, hlimit, hframes, hopen, fun g hlt => ?_, ?_, ?_⟩
    · have haccounts := haccounted.allocated
      have hempty : ∀ n, ((List.replicate n (Vec.empty : Vec UInt8)).map Vec.capacity).sum = 0 := by
        intro n
        rw [List.map_replicate, List.sum_replicate_nat]
        rfl
      unfold reserved retained at haccounts ⊢
      rw [hids.1, hoffs.1] at haccounts
      dsimp only at haccounts ⊢
      rw [hids'.1, hoffs'.1, hids'.2, hoffs'.2, hlastFrame'.2, hlastOffset'.2, hpendingDelta'.2,
        hpendingRun'.2, hempty, haccounts]
      rfl
    · exact ⟨⟨_, hget hids'.1 hlt, rfl⟩, ⟨_, hget hoffs'.1 hlt, rfl⟩, hget hlastFrame'.1 hlt,
        hget hlastOffset'.1 hlt, hget hpendingDelta'.1 hlt, hget hpendingRun'.1 hlt⟩
    · exact (congrArg List.length hids'.1).trans List.length_replicate
    · exact (congrArg List.length hlastFrame'.1).trans List.length_replicate

/-! ## Runs -/

/-- The index that is kept, if one is, has its accounts right. -/
def Kept (limit : Nat) (positions : Option Index) : Prop :=
  ∀ x, positions = some x → x.Accounted ∧ x.limit = limit

/-- A list that starts keeps the account and the limit. -/
theorem Starts.kept {time : Nat} {cyclic : Bool} {y : Index} (hstarts : Starts time cyclic x y)
    (h : x.Accounted) : y.Accounted ∧ y.limit = x.limit := by
  unfold Starts at hstarts
  split at hstarts
  · rw [hstarts]
    exact ⟨h, rfl⟩
  · exact ⟨hstarts.accounted, hstarts.limit⟩

/-- A record that is entered keeps the account and the limit. -/
theorem Enters.kept {rank offset : Nat} {y x' : Index} (henters : Enters rank offset y x')
    (h : y.Accounted) : x'.Accounted ∧ x'.limit = y.limit := by
  unfold Enters at henters
  split at henters
  · rw [henters]
    exact ⟨h, rfl⟩
  · exact ⟨henters.accounted, henters.limit⟩

variable {limit : Nat} {checked : Bool}

/-- One event. -/
theorem visit_settles (hE : Lax E) (event : Event) {positions : Option Index}
    (h : Kept limit positions) : Settles (Kept limit) E (visit checked event positions) := by
  cases positions with
  | none => exact h
  | some x =>
    obtain ⟨haccounted, hlimit⟩ := h x rfl
    cases event with
    | tick => exact h
    | listEnd =>
      rintro _ ⟨⟩
      exact ⟨⟨haccounted.allocated, haccounted.within⟩, hlimit⟩
    | scalar event =>
      refine (push_settles haccounted (.inr hE)).bind fun r hr => ?_
      obtain ⟨kept, x'⟩ := r
      rintro y hy
      split at hy
      · next htrue =>
        cases hy
        obtain ⟨z, hstarts, henters⟩ := hr htrue
        obtain ⟨hz, hzlimit⟩ := hstarts.kept haccounted
        obtain ⟨hx', hx'limit⟩ := henters.kept hz
        exact ⟨hx', hx'limit.trans (hzlimit.trans hlimit)⟩
      · cases hy

/-- Any events. -/
theorem visitAll_settles (hE : Lax E) (events : List Event) : ∀ {positions : Option Index},
    Kept limit positions → Settles (Kept limit) E (visitAll checked events positions) := by
  induction events with
  | nil => exact fun h => h
  | cons event events ih => exact fun h => (visit_settles hE event h).bind fun _ h => ih h

/-- The end of a body. -/
theorem complete_settles (hE : E .bounds) {positions : Option Index} (h : Kept limit positions) :
    Settles (Kept limit) E (complete positions) := by
  cases positions with
  | none => exact h
  | some x =>
    obtain ⟨haccounted, hlimit⟩ := h x rfl
    refine (finish_settles haccounted (.inr hE)).bind fun r hr => ?_
    obtain ⟨kept, x'⟩ := r
    rintro y hy
    split at hy
    · next htrue =>
      cases hy
      exact ⟨(hr htrue).accounted, (hr htrue).limit.trans hlimit⟩
    · cases hy

theorem withLimit_kept {active : Nat} {answers : Allocator} :
    Settles (Kept limit) E (withLimit active limit answers) :=
  withLimit_settles.imp fun _ h x hx => ⟨(h x hx).accounted, (h x hx).limit⟩

end

/-- A panic of the source, which ranks outside the table and numbers that are not in order end
in. -/
def Panics (fault : Fault) : Prop := fault = .bounds ∨ fault = .arithmetic

/-- An index that was given up stays given up. -/
theorem visitAll_none (checked : Bool) (events : List Event) :
    visitAll checked events none = .ok none := by
  induction events with
  | nil => rfl
  | cons event events ih => exact ih

/-- **The index stays in its budget.** Whatever is pushed and whatever the allocator answers, no
operation takes more than is left of the limit or appends more than is reserved, as long as all
before it returned true. The index that is kept, during the walk and at its end, has allocated the
capacities of all its arrays and no more than the limit. When an operation returns false the index
is dropped. -/
theorem budget_kept (checked : Bool) (active limit : Nat) (answers : Allocator)
    (events : List Event) :
    Settles (Kept limit) Panics (withLimit active limit answers >>= visitAll checked events) ∧
      Settles (Kept limit) Panics
        (withLimit active limit answers >>= visitAll checked events >>= complete) ∧
      (∀ (x x' : Index) (event : ScalarEvent),
        x.push checked event.rank event.time event.offset event.cyclic = .ok (false, x') →
          visitAll checked (.scalar event :: events) (some x) = .ok none) ∧
      ∀ x x' : Index, x.finish = .ok (false, x') → complete (some x) = .ok none := by
  have hwalk :
      Settles (Kept limit) Panics (withLimit active limit answers >>= visitAll checked events) :=
    withLimit_kept.bind fun _ h => visitAll_settles ⟨.inl rfl, .inr rfl⟩ events h
  refine ⟨hwalk, hwalk.bind fun _ h => complete_settles (.inl rfl) h, fun x x' event hpush => ?_,
    fun x x' hfinish => ?_⟩
  · unfold visitAll visit
    dsimp only
    rw [hpush]
    exact visitAll_none checked events
  · unfold complete
    dsimp only
    rw [hfinish]
    rfl

end Index

end Ondas.Ghw
