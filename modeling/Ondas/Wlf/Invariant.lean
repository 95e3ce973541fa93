import Ondas.Wlf.Sessions

/-!
# The state of the WLF worker

In every state that jobs lead to, whatever the environment answers, the live owners are of the
selected resolution, and an idle owner is clean, has an identity and is alone (`State.Sound`). Each
change of the state keeps this, so every job does, and a run of jobs (`runJobs_sound`). While the
files of the registered sessions do not change, the owners have the resolution that their sessions
recorded (`worker_invariant`).
-/

namespace Ondas.Wlf

open Library Job

/-! ## What is done with a handle -/

/-- The file, the declarations and the identity of a handle do not change. -/
structure Handle.Kept (h h' : Handle) : Prop where
  path : h'.owner.path = h.owner.path
  header : h'.owner.header = h.owner.header
  declarations : h'.owner.declarations = h.owner.declarations
  identity : h'.identity = h.identity

/-- Nothing failed on a handle since, and its flag was not changed. -/
structure Handle.Tracks (h h' : Handle) : Prop extends Handle.Kept h h' where
  failures : h'.owner.failures = h.owner.failures
  reusable : h'.reusable = h.reusable

/-- A handle without its flag cleared had no failure. -/
def Handle.Clean (h : Handle) : Prop := h.reusable = true → h.owner.failures = 0

section
variable {α β : Type} {h h' h'' : Handle}

theorem Handle.Kept.refl (h : Handle) : h.Kept h := ⟨rfl, rfl, rfl, rfl⟩

theorem Handle.Kept.trans (hk : h.Kept h') (hk' : h'.Kept h'') : h.Kept h'' :=
  ⟨hk'.path.trans hk.path, hk'.header.trans hk.header, hk'.declarations.trans hk.declarations,
    hk'.identity.trans hk.identity⟩

theorem Handle.Tracks.refl (h : Handle) : h.Tracks h := ⟨.refl h, rfl, rfl⟩

/-- A clean handle stays clean while nothing fails. -/
theorem Handle.Tracks.clean (ht : h.Tracks h') (hh : h.Clean) : h'.Clean := by
  intro hreusable
  rw [ht.failures]
  exact hh (ht.reusable ▸ hreusable)

theorem Handle.clean_taint (h : Handle) : h.taint.Clean := by
  intro hreusable
  cases hreusable

/-- An answer leaves a handle without a failure, and an error leaves the same file. Calls are
numbered upwards. -/
def Tracked (x : OnHandle α) : Prop :=
  ∀ (h : Handle) (n : Nat),
    Decoder.Triple (fun live : Live => h.Tracks live.handle ∧ n ≤ live.calls) x
      (fun _ live => h.Tracks live.handle ∧ n ≤ live.calls)
      fun _ live => h.Kept live.handle ∧ n ≤ live.calls

theorem Tracked.pure (a : α) : Tracked (Pure.pure a : OnHandle α) :=
  fun _ _ => .pure fun _ ht => ht

theorem Tracked.bind {x : OnHandle α} {f : α → OnHandle β} (hx : Tracked x)
    (hf : ∀ a, Tracked (f a)) : Tracked (x >>= f) :=
  fun h n => (hx h n).bind fun a => hf a h n

theorem tracked_look (g : Live → α) : Tracked (Decoder.look g) :=
  fun _ _ => .look fun _ ht => ht

theorem Handle.Tracks.traverse (ht : h.Tracks h') (records : List NativeRecord) :
    h.Tracks (h'.traverse records) :=
  ⟨⟨ht.path, ht.header, ht.declarations, ht.identity⟩, ht.failures, ht.reusable⟩

/-- The parts of a handle that a failure leaves. -/
theorem Handle.Kept.fault (hk : h.Kept h') : h.Kept h'.fault :=
  ⟨hk.path, hk.header, hk.declarations, hk.identity⟩

theorem Handle.Kept.taint (hk : h.Kept h') : h.Kept h'.taint :=
  ⟨hk.path, hk.header, hk.declarations, hk.identity⟩

/-- `begin_native` tracks, and clears the flag when it fails. -/
theorem beginNative_triple (sdk : Sdk) (indices : List Nat) (start stop : Nat) (point : Bool)
    (h : Handle) (n : Nat) :
    Decoder.Triple (fun live : Live => h.Tracks live.handle ∧ n ≤ live.calls)
      (beginNative sdk indices start stop point)
      (fun _ live => h.Tracks live.handle ∧ n ≤ live.calls)
      fun _ live => (h.Kept live.handle ∧ n ≤ live.calls) ∧ live.handle.Clean := by
  rintro live ⟨ht, hn⟩
  unfold beginNative
  refine ⟨fun a live' heq => ?_, fun e live' heq => ?_⟩
  · split at heq
    · cases heq; exact ⟨ht.traverse _, Nat.le_succ_of_le hn⟩
    · cases heq
  · split at heq
    · cases heq
    · cases heq
      exact ⟨⟨(ht.traverse []).toKept.fault.taint, Nat.le_succ_of_le hn⟩, Handle.clean_taint _⟩

/-- Beginning a query keeps what a handle tracks. -/
theorem tracked_beginNative (sdk : Sdk) (indices : List Nat) (start stop : Nat) (point : Bool) :
    Tracked (beginNative sdk indices start stop point) := fun h n =>
  (beginNative_triple sdk indices start stop point h n).mono (fun _ ht => ht) (fun _ _ ht => ht)
    fun _ _ hk => hk.1

/-- So does the next record. -/
theorem tracked_nextNative (sdk : Sdk) (operation : String) :
    Tracked (nextNative sdk operation) := by
  rintro h n live ⟨ht, hn⟩
  unfold nextNative
  refine ⟨fun a live' heq => ?_, fun e live' heq => ?_⟩
  · split at heq
    · cases heq
    · split at heq
      · cases heq; exact ⟨ht, Nat.le_succ_of_le hn⟩
      · cases heq; exact ⟨ht.traverse _, Nat.le_succ_of_le hn⟩
  · split at heq
    · cases heq; exact ⟨ht.toKept.fault, Nat.le_succ_of_le hn⟩
    · split at heq <;> cases heq

/-- So does starting a point. -/
theorem tracked_pointStartNative (sdk : Sdk) (index target : Nat) :
    Tracked (pointStartNative sdk index target) := by
  rintro h n live ⟨ht, hn⟩
  unfold pointStartNative
  refine ⟨fun a live' heq => ?_, fun e live' heq => ?_⟩
  · split at heq
    · cases heq; exact ⟨ht.traverse _, Nat.le_succ_of_le hn⟩
    · cases heq
  · split at heq
    · cases heq
    · cases heq; exact ⟨(ht.traverse []).toKept.fault, Nat.le_succ_of_le hn⟩

/-- So does decoding a record. -/
theorem tracked_decode (out : NativeRecord) (encodings : List Encoding) :
    Tracked (decode out encodings) := by
  rintro h n live ⟨ht, hn⟩
  unfold decode
  refine ⟨fun a live' heq => ?_, fun e live' heq => ?_⟩
  · split at heq
    · cases heq; exact ⟨ht, hn⟩
    · cases heq
  · split at heq
    · cases heq
    · cases heq; exact ⟨ht.toKept.fault, hn⟩

/-- So does the loop over the records of a point. -/
theorem tracked_pointLoop (sdk : Sdk) (encodings : List Encoding)
    (projections : List (Nat × Signal)) (start : Option Nat) (fuel : Nat)
    (states : List (Option PointState)) :
    Tracked (pointLoop sdk encodings projections start fuel states) := by
  induction fuel generalizing states with
  | zero => exact .pure _
  | succ fuel ih =>
    refine (tracked_nextNative sdk "sample").bind fun out => ?_
    cases out with
    | none => exact .pure _
    | some out =>
      dsimp only
      split
      · exact ih _
      · refine (tracked_decode out encodings).bind fun record => ?_
        cases record.value with
        | bits digits => exact ih _
        | real | string | event =>
          rintro h n live ⟨ht, hn⟩
          refine ⟨fun a live' heq => ?_, fun e live' heq => ?_⟩
          · cases heq
          · cases heq; exact ⟨ht.toKept.fault, hn⟩

/-- So do the states at a point. -/
theorem tracked_pointStates (sdk : Sdk) (indices : List Nat) (encodings : List Encoding)
    (projections : List (Nat × Signal)) (start : Option Nat) (time : Nat) :
    Tracked (pointStates sdk indices encodings projections start time) :=
  Tracked.bind (tracked_beginNative sdk indices (start.getD 0) time true) fun _ =>
    Tracked.bind (tracked_look _) fun _ => tracked_pointLoop sdk encodings projections start _ _

/-- So do the samples at a point. -/
theorem tracked_sampleStates (sdk : Sdk) (indices : List Nat) (encodings : List Encoding)
    (projections : List (Nat × Signal)) (target : Nat) :
    Tracked (sampleStates sdk indices encodings projections target) := by
  have hrest : ∀ recent : List (Option PointState), Tracked (do
      let samples := (projections.zip recent).map fun entry => knownSample entry.1 entry.2
      let left := ((projections.zip samples).filter fun entry => entry.2.isNone).map Prod.fst
      let bases := (left.map Prod.fst).reverse.dedup.reverse
      let fallback := left.map fun projection => (bases.idxOf projection.1, projection.2)
      if fallback.isEmpty then pure (samples.filterMap id)
      else do
        let states ← pointStates sdk (bases.map fun base => indices.getD base 0)
          (bases.map fun base => encodings.getD base .unsupported) fallback none target
        let whole := (fallback.zip states).map fun entry => wholeSample entry.1 entry.2
        pure (sampleStates.fillMissing samples whole)) := by
    intro recent
    dsimp only
    split
    · exact .pure _
    · exact Tracked.bind (tracked_pointStates sdk _ _ _ none target) fun _ => .pure _
  unfold sampleStates
  dsimp only
  split
  · split
    · exact Tracked.bind (tracked_pointStartNative sdk _ target) fun hint =>
        Tracked.bind (tracked_pointStates sdk _ encodings projections _ target) hrest
    · exact Tracked.bind (.pure _) fun hint =>
        Tracked.bind (tracked_pointStates sdk _ encodings projections _ target) hrest
  · exact Tracked.bind (.pure _) hrest

/-- The loop of `next` returns a batch, and leaves a clean handle clean. -/
theorem nextLoop_clean (sdk : Sdk) (fuel : Nat) (query : Query) (records : List Record)
    {h : Handle} {n : Nat} {live live' : Live}
    {result : Except Error (Batch × Query)} (ht : h.Tracks live.handle ∧ n ≤ live.calls)
    (hrun : nextLoop sdk fuel query records live = (result, live')) :
    (h.Kept live'.handle ∧ n ≤ live'.calls) ∧ (h.Clean → live'.handle.Clean) := by
  induction fuel generalizing query records live with
  | zero =>
    cases hrun
    exact ⟨⟨ht.1.toKept, ht.2⟩, ht.1.clean⟩
  | succ fuel ih =>
    unfold nextLoop at hrun
    rcases hnext : nextNative sdk "read" live with ⟨e | out, live₁⟩
    · obtain ⟨hkept, hn⟩ := (tracked_nextNative sdk "read" h n live ht).2 e live₁ hnext
      rw [hnext] at hrun
      cases hrun
      exact ⟨⟨hkept.taint, hn⟩, fun _ => Handle.clean_taint _⟩
    · have ht₁ := (tracked_nextNative sdk "read" h n live ht).1 out live₁ hnext
      rw [hnext] at hrun
      cases out with
      | none =>
        cases hrun
        exact ⟨⟨ht₁.1.toKept, ht₁.2⟩, ht₁.1.clean⟩
      | some out =>
        dsimp only at hrun
        split at hrun
        · exact ih query records ht₁ hrun
        · rcases hdecode : decode out query.encodings live₁ with ⟨e | record, live₂⟩
          · rw [hdecode] at hrun
            cases hrun
            obtain ⟨hkept, hn⟩ :=
              (tracked_decode out query.encodings h n live₁ ht₁).2 e live₂ hdecode
            exact ⟨⟨hkept.taint, hn⟩, fun _ => Handle.clean_taint _⟩
          · have ht₂ := (tracked_decode out query.encodings h n live₁ ht₁).1 record live₂ hdecode
            have hn : n ≤ live₂.calls + 1 := Nat.le_succ_of_le ht₂.2
            rw [hdecode] at hrun
            dsimp only [batchEndNative] at hrun
            split at hrun
            · cases hrun
              exact ⟨⟨ht₂.1.toKept, hn⟩, ht₂.1.clean⟩
            · refine ih _ _ ?_ hrun
              exact ⟨ht₂.1, hn⟩

end

/-! ## The state -/

/-- A recorded resolution, and a handle: it has not failed, and its header is of the resolution. -/
structure Fits (P : Nat → Meta → Prop) (resolution : Nat) (handle : Handle) : Prop where
  clean : handle.Clean
  header : P resolution handle.owner.header

namespace State

/-- Owners are live of the selected resolution only. An idle owner is alone, unfailed, and has an
identity. No session has a number yet to come. `P` is what is asked of a header and the resolution
its session recorded, and `issued` is a number handed out before. -/
structure Sound (P : Nat → Meta → Prop) (issued : Nat) (state : State) : Prop where
  live : ∀ (id : Nat) (file : File) (handle : Handle), state.files[id]? = some file →
    file.native = some handle →
      state.resolution = some file.resolution ∧ Fits P file.resolution handle
  idle : ∀ idle, state.idle = some idle →
    state.files.isEmpty = true ∧ state.resolution = some idle.resolution ∧
      Fits P idle.resolution idle.handle ∧ idle.handle.reusable = true ∧
        idle.handle.identity.isSome = true
  ids : ∀ (id : Nat) (file : File), state.files[id]? = some file → id ≤ state.nextId
  issued : issued ≤ state.nextId

section
variable {P : Nat → Meta → Prop} {issued : Nat} {state : State} {id resolution : Nat}
    {file file' : File}
  {handle : Handle}

/-- What holds of the headers may be weakened. -/
theorem Sound.mono {Q : Nat → Meta → Prop} (hs : state.Sound P issued)
    (h : ∀ resolution header, P resolution header → Q resolution header) :
    state.Sound Q issued := by
  refine ⟨fun id file handle hfile hnative => ?_, fun idle hidle => ?_, hs.ids,
    hs.issued⟩
  · obtain ⟨hresolution, hfits⟩ := hs.live id file handle hfile hnative
    exact ⟨hresolution, hfits.clean, h _ _ hfits.header⟩
  · obtain ⟨hempty, hresolution, hfits, hrest⟩ := hs.idle idle hidle
    exact ⟨hempty, hresolution, ⟨hfits.clean, h _ _ hfits.header⟩, hrest⟩

/-- The initial state has no session. -/
theorem sound_initial : (initial).Sound P 0 := by
  refine ⟨fun id file handle hfile => ?_, fun idle hidle => ?_, fun id file hfile => ?_, le_rfl⟩
  · simp [initial] at hfile
  · cases hidle
  · simp [initial] at hfile

/-- The sessions are the same after a reset, without their owners. -/
@[simp] theorem files_reset (state : State) (id : Nat) :
    state.reset.files[id]? = (state.files[id]?).map fun file => { file with native := none } := by
  simp [reset]

/-- Without owners the resolution is free. -/
theorem Sound.reset (hs : state.Sound P issued) (resolution : Option Nat) :
    ({ state.reset with resolution := resolution } : State).Sound P issued := by
  refine ⟨fun id file handle hfile hnative => ?_, fun idle hidle => ?_, fun id file hfile => ?_,
    hs.issued⟩
  · change state.reset.files[id]? = some file at hfile
    rw [files_reset, Option.map_eq_some_iff] at hfile
    obtain ⟨file', -, rfl⟩ := hfile
    cases hnative
  · cases hidle
  · change state.reset.files[id]? = some file at hfile
    rw [files_reset, Option.map_eq_some_iff] at hfile
    obtain ⟨file', hfile', rfl⟩ := hfile
    exact hs.ids id file' hfile'

/-- Choosing a resolution keeps the state sound. -/
theorem Sound.selectResolution (hs : state.Sound P issued) (resolution : Nat) :
    (state.selectResolution resolution).Sound P issued := by
  unfold State.selectResolution
  split
  · exact hs
  · exact hs.reset _

/-- A session of the selected resolution is found again. -/
theorem files_selectResolution (h : state.files[id]? = some file) (resolution : Nat) :
    ∃ native, (state.selectResolution resolution).files[id]? =
      some { file with native := native } := by
  unfold State.selectResolution
  split
  · exact ⟨file.native, h⟩
  · exact ⟨none, by rw [files_reset, h, Option.map_some]⟩

theorem Sound.dropIdle (hs : state.Sound P issued) :
    ({ state with idle := none } : State).Sound P issued :=
  ⟨hs.live, nofun, hs.ids, hs.issued⟩

/-- A number is handed out. -/
theorem Sound.advance (hs : state.Sound P issued) {nextId : Nat} (h : state.nextId ≤ nextId) :
    ({ state with nextId := nextId } : State).Sound P issued :=
  ⟨hs.live, hs.idle, fun id file hfile => (hs.ids id file hfile).trans h, hs.issued.trans h⟩

/-- A session is registered, or registered again, with a fitting owner or none. -/
theorem Sound.put (hs : state.Sound P issued) (hid : id ≤ state.nextId) (hidle : state.idle = none)
    (hnative : ∀ handle, file.native = some handle →
      state.resolution = some file.resolution ∧ Fits P file.resolution handle) :
    (state.put id file).Sound P issued := by
  refine ⟨fun id' file' handle hfile' hhandle => ?_, fun idle h => ?_, fun id' file' hfile' => ?_,
    hs.issued⟩
  · simp only [State.put, Std.HashMap.getElem?_insert] at hfile'
    split at hfile'
    · cases hfile'; exact hnative handle hhandle
    · exact hs.live id' file' handle hfile' hhandle
  · rw [show (state.put id file).idle = state.idle from rfl, hidle] at h
    cases h
  · simp only [State.put, Std.HashMap.getElem?_insert] at hfile'
    split at hfile'
    · rename_i heq
      rw [← eq_of_beq heq]
      exact hid
    · exact hs.ids id' file' hfile'

/-- No owner is idle while a session is registered. -/
theorem Sound.idle_none (hs : state.Sound P issued) (h : state.files[id]? = some file) :
    state.idle = none := by
  cases hidle : state.idle with
  | none => rfl
  | some idle =>
    have hempty := (hs.idle idle hidle).1
    rw [Std.HashMap.getElem?_of_isEmpty hempty] at h
    cases h

/-- Closing a session keeps the state sound when no handle is parked. -/
theorem Sound.erase (hs : state.Sound P issued) (hidle : state.idle = none) (id : Nat) :
    ({ state with files := state.files.erase id } : State).Sound P issued := by
  have hold : ∀ {id' : Nat} {file' : File}, (state.files.erase id)[id']? = some file' →
      state.files[id']? = some file' := by
    intro id' file' h
    rw [Std.HashMap.getElem?_erase] at h
    split at h
    · cases h
    · exact h
  refine ⟨fun id' file' handle hfile' => hs.live id' file' handle (hold hfile'), fun idle h => ?_,
    fun id' file' hfile' => hs.ids id' file' (hold hfile'), hs.issued⟩
  rw [show ({ state with files := state.files.erase id } : State).idle = none from hidle] at h
  cases h

/-- A clean owner with an identity stays when no session does. -/
theorem Sound.park (hs : state.Sound P issued) (hempty : state.files.isEmpty = true)
    {idle : Idle} (hresolution : state.resolution = some idle.resolution)
    (hfits : Fits P idle.resolution idle.handle) (hreusable : idle.handle.reusable = true)
    (hidentity : idle.handle.identity.isSome = true) :
    ({ state with idle := some idle } : State).Sound P issued := by
  refine ⟨hs.live, fun idle' h => ?_, hs.ids, hs.issued⟩
  cases h
  exact ⟨hempty, hresolution, hfits, hreusable, hidentity⟩

end

end State

/-! ## Calls to the environment -/

/-- A job that calls the environment, and leaves the state as it is. -/
def Calling {α : Type} (x : Job α) : Prop :=
  ∀ (state : State) (n : Nat),
    Decoder.Triple (fun w : World => w.state = state ∧ n ≤ w.calls) x
      (fun _ w => w.state = state ∧ n ≤ w.calls) fun _ w => w.state = state ∧ n ≤ w.calls

section
variable {α β : Type}

theorem Calling.pure (a : α) : Calling (Pure.pure a : Job α) := fun _ _ => .pure fun _ h => h

theorem Calling.bind {x : Job α} {f : α → Job β} (hx : Calling x) (hf : ∀ a, Calling (f a)) :
    Calling (x >>= f) :=
  fun state n => (hx state n).bind fun a => hf a state n

/-- A call of the library is counted. -/
theorem calling_call (f : Nat → α) : Calling (call f) := by
  rintro state n w ⟨hw, hn⟩
  refine ⟨fun a w' heq => ?_, fun e w' heq => ?_⟩
  · cases heq; exact ⟨hw, Nat.le_succ_of_le hn⟩
  · cases heq

/-- A call answers for its number. -/
theorem call_triple (f : Nat → α) (state : State) (n : Nat) (E : Error → World → Prop) :
    Decoder.Triple (fun w : World => w.state = state ∧ n ≤ w.calls) (call f)
      (fun a w => w.state = state ∧ ∃ k, n ≤ k ∧ k + 1 ≤ w.calls ∧ f k = a) E := by
  rintro w ⟨hw, hn⟩
  refine ⟨fun a w' heq => ?_, fun e w' heq => ?_⟩
  · cases heq; exact ⟨hw, w.calls, hn, le_rfl, rfl⟩
  · cases heq

/-- Raising a result answers it or fails with it, in the same world. -/
theorem raise_triple {P : World → Prop} {Q : α → World → Prop} {E : Error → World → Prop}
    {result : Except Error α} (hok : ∀ a w, result = .ok a → P w → Q a w)
    (herror : ∀ e w, result = .error e → P w → E e w) :
    Decoder.Triple P (raise result) Q E := by
  intro w hw
  refine ⟨fun a w' heq => ?_, fun e w' heq => ?_⟩
  · cases heq; exact hok a w rfl hw
  · cases heq; exact herror e w rfl hw

theorem raise_error_triple {P : World → Prop} {Q : α → World → Prop} {E : Error → World → Prop}
    {e : Error} (h : ∀ w, P w → E e w) : Decoder.Triple P (raise (.error e) : Job α) Q E :=
  raise_triple nofun fun _ w heq hw => by cases heq; exact h w hw

/-- A change of the state is all that a job makes. -/
theorem modify_triple {P : World → Prop} {Q : Unit → World → Prop} {E : Error → World → Prop}
    {f : State → State} (h : ∀ w, P w → Q () { w with state := f w.state }) :
    Decoder.Triple P (modify f) Q E := by
  intro w hw
  refine ⟨fun a w' heq => ?_, fun e w' heq => ?_⟩
  · cases heq; exact h w hw
  · cases heq

/-- What is done with a handle leaves the state as it is. -/
theorem onHandle_triple {handle : Handle} {x : OnHandle α} (state : State) (n : Nat)
    {R : Except Error α → Handle → Prop} {E : Error → World → Prop}
    (h : ∀ k result live, n ≤ k → x ⟨handle, k⟩ = (result, live) →
      n ≤ live.calls ∧ R result live.handle) :
    Decoder.Triple (fun w : World => w.state = state ∧ n ≤ w.calls) (onHandle handle x)
      (fun r w => (w.state = state ∧ n ≤ w.calls) ∧ R r.1 r.2) E := by
  rintro w ⟨hw, hn⟩
  rcases hx : x ⟨handle, w.calls⟩ with ⟨result, live⟩
  obtain ⟨hcalls, hresult⟩ := h w.calls result live hn hx
  unfold onHandle
  refine ⟨fun a w' heq => ?_, fun e w' heq => ?_⟩
  · rw [hx] at heq; cases heq; exact ⟨⟨hw, hcalls⟩, hresult⟩
  · rw [hx] at heq; cases heq

/-- Calls before something else. -/
theorem Calling.before {x : Job α} {f : α → Job β} {state : State} {n : Nat}
    {Q : β → World → Prop} {E : Error → World → Prop} (hx : Calling x)
    (hE : ∀ e w, w.state = state ∧ n ≤ w.calls → E e w)
    (hf : ∀ a, Decoder.Triple (fun w => w.state = state ∧ n ≤ w.calls) (f a) Q E) :
    Decoder.Triple (fun w => w.state = state ∧ n ≤ w.calls) (x >>= f) Q E :=
  ((hx state n).mono (fun _ hw => hw) (fun _ _ hw => hw) hE).bind hf

/-- Reading a content counts its calls. -/
theorem calling_readLoop (sdk : Sdk) (fuel remaining : Nat) (content : List UInt8) :
    Calling (readLoop sdk fuel remaining content) := by
  induction fuel generalizing remaining content with
  | zero => exact .pure _
  | succ fuel ih =>
    unfold readLoop
    split
    · exact .pure _
    · refine Calling.bind (calling_call _) fun read => ?_
      split
      · exact .pure _
      · exact .pure _
      · exact ih _ _

/-- So does reading its identity. -/
theorem calling_contentIdentity (sdk : Sdk) (path : Path) : Calling (contentIdentity sdk path) := by
  refine Calling.bind (calling_call _) fun before => ?_
  cases before with
  | none => exact .pure _
  | some before =>
    refine Calling.bind (calling_call _) fun opened => ?_
    split
    · exact .pure _
    refine Calling.bind (calling_call _) fun described => ?_
    split
    · exact .pure _
    refine Calling.bind (calling_readLoop sdk _ _ _) fun content => ?_
    cases content with
    | none => exact .pure _
    | some content =>
      refine Calling.bind (calling_call _) fun extra => ?_
      split
      · exact .pure _
      refine Calling.bind (calling_call _) fun described => ?_
      split
      · exact .pure _
      refine Calling.bind (calling_call _) fun after => ?_
      split <;> exact .pure _

/-- A handle that the library answered, by one of so many calls, and nothing was done with. -/
structure Fresh (sdk : Sdk) (path name : Path) (metadataOnly : Bool) (lo hi : Nat)
    (handle : Handle) : Prop where
  source : handle.owner.path = path
  unfailed : handle.owner.failures = 0
  untouched : handle.owner.traversal = []
  answer : ∃ k, lo ≤ k ∧ k < hi ∧ sdk.openOwner k path name metadataOnly =
    .ok (some (handle.owner.header, handle.owner.declarations))

/-- The check of the pointer, after the call of the library and others. -/
theorem checkOwner_triple (sdk : Sdk) (path name : Path) (metadataOnly : Bool) (state : State)
    {n k : Nat} (identity : Option NativeIdentity) (hk : n ≤ k)
    {raw : Option (Meta × List NativeDeclaration)}
    (hanswer : sdk.openOwner k path name metadataOnly = .ok raw) :
    Decoder.Triple (fun w : World => w.state = state ∧ k + 1 ≤ w.calls)
      (match raw with
        | none => raise (.error (backendError "null WLF reader"))
        | some (header, declarations) =>
          (pure ⟨⟨path, header, declarations, [], 0⟩, identity, true⟩ : Job Handle))
      (fun handle w => w.state = state ∧ n ≤ w.calls ∧
        Fresh sdk path name metadataOnly n w.calls handle)
      fun _ w => w.state = state ∧ n ≤ w.calls := by
  cases raw with
  | none => exact raise_error_triple fun w hw => ⟨hw.1, by omega⟩
  | some raw => exact .pure fun w hw => ⟨hw.1, by omega, rfl, rfl, rfl, k, hk, hw.2, hanswer⟩

/-- Opening a file leaves the state as it is, and answers a fresh handle. -/
theorem openHandle_triple (sdk : Sdk) (path name : Path) (metadataOnly : Bool) (state : State)
    (n : Nat) :
    Decoder.Triple (fun w : World => w.state = state ∧ n ≤ w.calls)
      (openHandle sdk path name metadataOnly)
      (fun handle w => w.state = state ∧ n ≤ w.calls ∧
        Fresh sdk path name metadataOnly n w.calls handle)
      fun _ w => w.state = state ∧ n ≤ w.calls := by
  cases metadataOnly with
  | true =>
    refine Decoder.Triple.bind (Calling.pure _ state n) fun before => ?_
    refine Decoder.Triple.bind (call_triple _ state n _) fun opened => ?_
    rintro w ⟨hw, k, hk, hcalls, hanswer⟩
    cases opened with
    | error failure => exact raise_error_triple (fun _ hw => hw) w ⟨hw, by omega⟩
    | ok raw =>
      exact Calling.before (.pure none) (fun e w hw => ⟨hw.1, by omega⟩)
        (fun identity => checkOwner_triple sdk path name _ state identity hk hanswer) w ⟨hw, hcalls⟩
  | false =>
    refine Decoder.Triple.bind (calling_call _ state n) fun before => ?_
    refine Decoder.Triple.bind (call_triple _ state n _) fun opened => ?_
    rintro w ⟨hw, k, hk, hcalls, hanswer⟩
    cases opened with
    | error failure => exact raise_error_triple (fun _ hw => hw) w ⟨hw, by omega⟩
    | ok raw =>
      exact Calling.before (calling_contentIdentity sdk path) (fun e w hw => ⟨hw.1, by omega⟩)
        (fun hashed => Calling.before (.pure _) (fun e w hw => ⟨hw.1, by omega⟩)
          fun identity => checkOwner_triple sdk path name _ state identity hk hanswer) w
          ⟨hw, hcalls⟩

end

/-! ## The session of a job -/

/-- While a session is registered its file keeps what was asked of its header: this is what the
calls from the world on, up to a number, answer when an owner is opened again. -/
def Steady (sdk : Sdk) (P : Nat → Meta → Prop) (w : World) (hi : Nat) : Prop :=
  ∀ (id : Nat) (file : File) (k : Nat) (header : Meta) (declarations : List NativeDeclaration),
    w.state.files[id]? = some file → w.calls ≤ k → k < hi →
      sdk.openOwner k file.path file.name false = .ok (some (header, declarations)) →
        P file.resolution header

/-- A registered session with its live owner. -/
structure Ready (P : Nat → Meta → Prop) (issued id : Nat) (file : File) (handle : Handle)
    (state : State) : Prop where
  sound : state.Sound P issued
  registered : ∃ file, state.files[id]? = some file
  native : file.native = some handle
  resolution : state.resolution = some file.resolution
  fits : Fits P file.resolution handle

section
variable {sdk : Sdk} {P : Nat → Meta → Prop} {w₀ : World} {issued hi id : Nat}

/-- What `begin_native` leaves of a fitting handle fits. -/
theorem beginNative_fits {indices : List Nat} {start stop resolution n k : Nat} {point : Bool}
    {handle : Handle} (hk : n ≤ k) {result : Except Error Unit} {live : Live}
    (hrun : beginNative sdk indices start stop point ⟨handle, k⟩ = (result, live)) :
    n ≤ live.calls ∧ (Fits P resolution handle → Fits P resolution live.handle) := by
  have htriple := beginNative_triple sdk indices start stop point handle n ⟨handle, k⟩
    ⟨.refl handle, hk⟩
  cases result with
  | ok a =>
    obtain ⟨htracks, hn⟩ := htriple.1 a live hrun
    exact ⟨hn, fun hfits => ⟨htracks.clean hfits.clean, htracks.header ▸ hfits.header⟩⟩
  | error e =>
    obtain ⟨⟨hkept, hn⟩, hclean⟩ := htriple.2 e live hrun
    exact ⟨hn, fun hfits => ⟨hclean, hkept.header ▸ hfits.header⟩⟩

/-- A job finds its session with a live owner of the selected resolution. When it finds none, no
owner of another resolution is left. -/
theorem file_triple (hs : w₀.state.Sound P issued) (hsteady : Steady sdk P w₀ hi) :
    Decoder.Triple (fun w => w = w₀) (file sdk id)
      (fun r w => w₀.calls ≤ w.calls ∧ (w.calls ≤ hi → Ready P issued id r.1 r.2 w.state))
      fun _ w => w₀.calls ≤ w.calls ∧ w.state.Sound P issued := by
  refine Decoder.Triple.bind
    (Q := fun found w => w = w₀ ∧ found = w₀.state.files[id]?)
    (.look fun w hw => ⟨hw, hw ▸ rfl⟩) fun found => ?_
  cases found with
  | none => exact raise_error_triple fun w hw => by rw [hw.1]; exact ⟨le_rfl, hs⟩
  | some file =>
  rintro w ⟨rfl, hfile⟩
  set s₁ := w.state.selectResolution file.resolution with hs₁
  have hsound₁ : s₁.Sound P issued := hs.selectResolution file.resolution
  have hresolution : s₁.resolution = some file.resolution := by
    rw [hs₁, State.selectResolution]
    split
    · assumption
    · rfl
  obtain ⟨native, hfile₁⟩ := State.files_selectResolution hfile.symm file.resolution
  have hid : id ≤ s₁.nextId := hsound₁.ids id _ hfile₁
  have hidle : s₁.idle = none := hsound₁.idle_none hfile₁
  -- A handle that fits is registered with the session.
  have hput : ∀ handle : Handle,
      Decoder.Triple (fun v : World => (v.state = s₁ ∧ w.calls ≤ v.calls) ∧
          (v.calls ≤ hi → Fits P file.resolution handle))
        (do
          modify (·.put id { file with native := some handle })
          pure ({ file with native := some handle }, handle))
        (fun r v => w.calls ≤ v.calls ∧ (v.calls ≤ hi → Ready P issued id r.1 r.2 v.state))
        fun _ v => w.calls ≤ v.calls ∧ v.state.Sound P issued := by
    intro handle
    refine Decoder.Triple.bind (modify_triple (Q := fun _ v => w.calls ≤ v.calls ∧
      (v.calls ≤ hi → Ready P issued id { file with native := some handle } handle v.state)) ?_)
      fun _ => .pure fun _ hv => hv
    rintro v ⟨⟨hstate, hcalls⟩, hfits⟩
    refine ⟨hcalls, fun hhi => ?_⟩
    have hfits := hfits hhi
    refine ⟨?_, ⟨{ file with native := some handle }, ?_⟩, rfl, ?_, hfits⟩
    · rw [hstate]
      refine hsound₁.put hid hidle fun handle' hnative => ?_
      cases hnative
      exact ⟨hresolution, hfits⟩
    · rw [hstate]
      exact Std.HashMap.getElem?_insert_self
    · rw [hstate]
      exact hresolution
  -- The session is looked up again, now in a state of its resolution.
  refine Decoder.Triple.bind (modify_triple (P := fun v => v = w)
    (Q := fun _ v => v.state = s₁ ∧ w.calls ≤ v.calls) fun v hv => ?_) (fun _ => ?_) w rfl
  · rw [hv]
    exact ⟨rfl, le_rfl⟩
  refine Decoder.Triple.bind
    (Q := fun found v => (v.state = s₁ ∧ w.calls ≤ v.calls) ∧ found = s₁.files[id]?)
    (.look fun v hv => ⟨hv, by rw [hv.1]⟩) fun found => ?_
  rintro v ⟨hv, rfl⟩
  rw [hs₁, hfile₁]
  cases native with
  | some handle =>
    refine Decoder.Triple.pure (P := fun v => v.state = s₁ ∧ w.calls ≤ v.calls)
      (fun v hv => ⟨hv.2, fun _ => ?_⟩) v hv
    obtain ⟨-, hfits⟩ := hsound₁.live id _ handle hfile₁ rfl
    rw [← hs₁, ← hv.1] at hfile₁
    exact ⟨hv.1 ▸ hsound₁, ⟨_, hfile₁⟩, rfl, hv.1 ▸ hresolution, hfits⟩
  | none =>
    have herror : ∀ (e : Error) (v : World), v.state = s₁ ∧ w.calls ≤ v.calls →
        w.calls ≤ v.calls ∧ v.state.Sound P issued := fun e v hv => ⟨hv.2, hv.1 ▸ hsound₁⟩
    refine Decoder.Triple.bind
      (Q := fun handle v => (v.state = s₁ ∧ w.calls ≤ v.calls) ∧
        (v.calls ≤ hi → Fits P file.resolution handle))
      ((openHandle_triple sdk file.path file.name false s₁ w.calls).mono (fun _ hv => hv)
        (fun handle v hv => ⟨⟨hv.1, hv.2.1⟩, fun hhi => ?_⟩) herror) (fun handle => ?_) v hv
    · obtain ⟨k, hk, hlt, hanswer⟩ := hv.2.2.answer
      refine ⟨fun _ => hv.2.2.unfailed, ?_⟩
      exact hsteady id file k _ _ hfile.symm hk (hlt.trans_le hhi) hanswer
    · cases hquery : file.query with
      | none =>
        simp only [hquery] at hput
        exact Decoder.Triple.bind (Q := fun handle v => (v.state = s₁ ∧ w.calls ≤ v.calls) ∧
          (v.calls ≤ hi → Fits P file.resolution handle)) (.pure fun _ hv => hv) hput
      | some query =>
        simp only [hquery] at hput
        rintro v ⟨hv, hfits⟩
        refine Decoder.Triple.bind (onHandle_triple s₁ v.calls
          (R := fun _ handle' => Fits P file.resolution handle → Fits P file.resolution handle')
          fun k result live hk hrun => beginNative_fits hk hrun) (fun r => ?_) v ⟨hv.1, le_rfl⟩
        obtain ⟨result, handle'⟩ := r
        refine Decoder.Triple.bind (Q := fun handle u => (u.state = s₁ ∧ w.calls ≤ u.calls) ∧
          (u.calls ≤ hi → Fits P file.resolution handle)) ?_ hput
        refine raise_triple (fun a u heq hu => ?_) fun e u _ hu => ?_
        · obtain ⟨⟨hstate, hcalls⟩, hfits'⟩ := hu
          cases result with
          | error e => cases heq
          | ok a =>
            cases heq
            exact ⟨⟨hstate, hv.2.trans hcalls⟩, fun hhi => hfits' (hfits (hcalls.trans hhi))⟩
        · exact ⟨hv.2.trans hu.1.2, hu.1.1 ▸ hsound₁⟩

/-- The state is sound, and calls are numbered upwards. -/
def Holds (P : Nat → Meta → Prop) (issued n : Nat) (w : World) : Prop :=
    w.state.Sound P issued ∧ n ≤ w.calls

/-- A job that keeps the state sound once its session is ready keeps it sound. -/
theorem after_file {α : Type} {rest : File × Handle → Job α} {result : Except Error α} {w : World}
    (hrest : ∀ (P : Nat → Meta → Prop) (file : File) (handle : Handle) (n : Nat),
      Decoder.Triple (fun w : World => Ready P issued id file handle w.state ∧ n ≤ w.calls)
        (rest (file, handle)) (fun _ => Holds P issued n) fun _ => Holds P issued n)
    (hs : w₀.state.Sound P issued) (hrun : (file sdk id >>= rest) w₀ = (result, w))
    (hsteady : Steady sdk P w₀ w.calls) : Holds P issued w₀.calls w := by
  rcases hfile : file sdk id w₀ with ⟨e | ⟨file, handle⟩, w₁⟩
  · rw [Decoder.bind_of_error hfile] at hrun
    cases hrun
    obtain ⟨hcalls, hsound⟩ := (file_triple hs hsteady w₀ rfl).2 e _ hfile
    exact ⟨hsound, hcalls⟩
  · rw [Decoder.bind_of_ok hfile] at hrun
    have hend : ∀ (P : Nat → Meta → Prop), Ready P issued id file handle w₁.state →
        Holds P issued w₁.calls w := by
      intro P hready
      cases result with
      | ok a => exact (hrest P file handle w₁.calls w₁ ⟨hready, le_rfl⟩).1 a w hrun
      | error e => exact (hrest P file handle w₁.calls w₁ ⟨hready, le_rfl⟩).2 e w hrun
    -- Whatever headers are, calls are numbered upwards.
    have htrivial : Steady sdk (fun _ _ => True) w₀ w₁.calls := fun _ _ _ _ _ _ _ _ _ => True.intro
    have hany := (file_triple (hs.mono fun _ _ _ => True.intro) htrivial w₀ rfl).1 _ w₁ hfile
    have hcalls := (hend _ (hany.2 le_rfl)).2
    obtain ⟨hfirst, hready⟩ := (file_triple hs hsteady w₀ rfl).1 _ w₁ hfile
    exact ⟨(hend P (hready hcalls)).1, hfirst.trans hcalls⟩

/-- The session of a job is put back with its owner, and nothing else changes. -/
theorem put_triple {file : File} {handle handle' : Handle} {state : State} {n : Nat}
    {E : Error → World → Prop} (h : Ready P issued id file handle state)
    (hfits : Fits P file.resolution handle') (query : Option Query) :
    Decoder.Triple (fun w : World => w.state = state ∧ n ≤ w.calls)
      (modify (·.put id { file with native := some handle', query := query }))
      (fun _ => Holds P issued n) E := by
  obtain ⟨registered, hregistered⟩ := h.registered
  refine modify_triple fun w hw => ⟨?_, hw.2⟩
  rw [hw.1]
  refine h.sound.put (h.sound.ids id _ hregistered) (h.sound.idle_none hregistered)
    fun handle'' hnative => ?_
  cases hnative
  exact ⟨h.resolution, hfits⟩

/-- Beginning a query keeps the invariant: the handle of the session is used, opened or dropped. -/
theorem begin_sound {indices : List Nat} {start stop : Nat} {result : Except Error Unit}
    {w : World} (hs : w₀.state.Sound P issued)
    (hrun : begin sdk id indices start stop w₀ = (result, w))
    (hsteady : Steady sdk P w₀ w.calls) : Holds P issued w₀.calls w := by
  refine after_file (fun P file handle n => ?_) hs hrun hsteady
  rintro w ⟨hready, hn⟩
  dsimp only
  cases indices.mapM fun index => file.encodings[index]? with
  | none => exact raise_error_triple (fun _ hw => hw) w ⟨hready.sound, hn⟩
  | some encodings =>
    refine Decoder.Triple.bind (onHandle_triple w.state n
      (R := fun _ handle' => Fits P file.resolution handle → Fits P file.resolution handle')
      fun k result live hk hrun => beginNative_fits hk hrun) (fun r => ?_) w ⟨rfl, hn⟩
    obtain ⟨result, handle'⟩ := r
    rintro u ⟨hu, hfits⟩
    have hput := fun query => put_triple (E := fun _ => Holds P issued n) (n := n) hready
      (hfits hready.fits) query
    cases result with
    | error e =>
      exact Decoder.Triple.bind (hput none) (fun _ => raise_error_triple fun _ hu => hu) u hu
    | ok a => exact hput _ u hu

/-- So does sampling at a tick. -/
theorem sampleBits_sound {indices : List Nat} {projections : List (Nat × Signal)} {time : Nat}
    {result : Except Error (List Query.Sample)} {w : World} (hs : w₀.state.Sound P issued)
    (hrun : sampleBits sdk id indices projections time w₀ = (result, w))
    (hsteady : Steady sdk P w₀ w.calls) : Holds P issued w₀.calls w := by
  refine after_file (fun P file handle n => ?_) hs hrun hsteady
  rintro w ⟨hready, hn⟩
  -- An answer leaves a handle as clean as it was, and after an error its flag is cleared.
  refine Decoder.Triple.bind (onHandle_triple w.state n
    (R := fun result handle' => handle.Kept handle' ∧ (result.isOk = true → handle.Tracks handle'))
    fun k result live hk hrun => ?_) (fun r => ?_) w ⟨rfl, hn⟩
  · have htracked := tracked_sampleStates sdk indices
      (indices.map fun index => file.encodings.getD index .unsupported) projections
      (min time file.last) handle n ⟨handle, k⟩ ⟨.refl handle, hk⟩
    cases result with
    | ok samples =>
      obtain ⟨htracks, hcalls⟩ := htracked.1 samples live hrun
      exact ⟨hcalls, htracks.toKept, fun _ => htracks⟩
    | error e =>
      obtain ⟨hkept, hcalls⟩ := htracked.2 e live hrun
      exact ⟨hcalls, hkept, nofun⟩
  · obtain ⟨result, handle'⟩ := r
    rintro u ⟨hu, hkept, htracks⟩
    have hheader := hready.fits.header
    rw [← hkept.header] at hheader
    have hfits : Fits P file.resolution
        (if result.isOk then handle'.traverse [] else (handle'.traverse []).taint) := by
      cases result with
      | ok samples => exact ⟨((htracks rfl).traverse []).clean hready.fits.clean, hheader⟩
      | error e => exact ⟨Handle.clean_taint _, hheader⟩
    exact Decoder.Triple.bind (put_triple hready hfits none)
      (fun _ => raise_triple (fun _ _ _ hu => hu) fun _ _ _ hu => hu) u hu

/-- So does the next batch. -/
theorem next_sound {result : Except Error Batch} {w : World} (hs : w₀.state.Sound P issued)
    (hrun : next sdk id w₀ = (result, w)) (hsteady : Steady sdk P w₀ w.calls) :
    Holds P issued w₀.calls w := by
  refine after_file (fun P file handle n => ?_) hs hrun hsteady
  rintro w ⟨hready, hn⟩
  dsimp only
  cases file.query with
  | none => exact raise_error_triple (fun _ hw => hw) w ⟨hready.sound, hn⟩
  | some query =>
    dsimp only
    split
    · exact Decoder.Triple.pure (fun _ hw => hw) w ⟨hready.sound, hn⟩
    · refine Decoder.Triple.bind (onHandle_triple w.state n
        (R := fun _ handle' => handle.Kept handle' ∧ handle'.Clean)
        fun k result live hk hrun => ?_) (fun r => ?_) w ⟨rfl, hn⟩
      · obtain ⟨⟨hkept, hcalls⟩, hclean⟩ :=
          nextLoop_clean sdk _ query [] ⟨.refl handle, hk⟩ hrun
        exact ⟨hcalls, hkept, hclean hready.fits.clean⟩
      · obtain ⟨result, handle'⟩ := r
        rintro u ⟨hu, hkept, hclean⟩
        exact Decoder.Triple.bind
          (put_triple hready ⟨hclean, hkept.header ▸ hready.fits.header⟩ _)
          (fun _ => raise_triple (fun _ _ _ hu => hu) fun _ _ _ hu => hu) u hu

end

/-! ## The jobs that open and close -/

/-- An idle owner that an open takes over: it is one of the path, of the selected resolution, and
has the full identity that the file is found to have. -/
structure Handed (sdk : Sdk) (path : Path) (w : World) (hi : Nat) (idle : Idle) : Prop where
  parked : w.state.idle = some idle
  source : idle.path = path
  resolution : w.state.resolution = some idle.resolution
  identity : ∃ (identity : NativeIdentity) (v : World), w.calls ≤ v.calls ∧ v.calls ≤ hi ∧
    idle.handle.identity = some identity ∧ (contentIdentity sdk path v).1 = .ok (some identity)

section
variable {sdk : Sdk} {P : Nat → Meta → Prop} {w₀ w : World} {issued id : Nat} {path : Path}

/-- A handle that is taken from the parked ones is one that was handed over and not changed since;
nothing stays parked. -/
theorem takeIdle_triple (sdk : Sdk) (path : Path) (w₀ : World) :
    Decoder.Triple (fun w => w = w₀) (takeIdle sdk path)
      (fun taken w => (w.state = { w₀.state with idle := none } ∧ w₀.calls ≤ w.calls) ∧
        ∀ idle, taken = some idle → Handed sdk path w₀ w.calls idle)
      fun _ w => w.state = { w₀.state with idle := none } ∧ w₀.calls ≤ w.calls := by
  set s : State := { w₀.state with idle := none } with hs
  have hnone : Decoder.Triple (fun w : World => w.state = s ∧ w₀.calls ≤ w.calls)
      (pure none : Job (Option Idle))
      (fun taken w => (w.state = s ∧ w₀.calls ≤ w.calls) ∧
        ∀ idle, taken = some idle → Handed sdk path w₀ w.calls idle)
      fun _ w => w.state = s ∧ w₀.calls ≤ w.calls := .pure fun w hw => ⟨hw, nofun⟩
  refine Decoder.Triple.bind (Q := fun state w => w = w₀ ∧ state = w₀.state)
    (.look fun w hw => ⟨hw, hw ▸ rfl⟩) fun state => ?_
  refine Decoder.Triple.bind
    (Q := fun _ w => (w.state = s ∧ w₀.calls ≤ w.calls) ∧ state = w₀.state)
    (modify_triple fun w hw => by rw [hw.1]; exact ⟨⟨rfl, le_rfl⟩, hw.2⟩) fun _ => ?_
  rintro w ⟨hw, rfl⟩
  cases hidle : w₀.state.idle with
  | none => exact hnone w hw
  | some idle =>
    dsimp only
    split
    next hmatch =>
      cases hidentity : idle.handle.identity with
      | none => exact hnone w hw
      | some saved =>
        refine Decoder.Triple.bind (calling_call _ s w₀.calls) (fun metadata => ?_) w hw
        split
        · exact hnone
        refine fun v hv => ?_
        have hcontent := calling_contentIdentity sdk path s v.calls v ⟨hv.1, le_rfl⟩
        refine Decoder.Triple.bind (P := fun u => u = v)
          (Q := fun identity u => (u.state = s ∧ v.calls ≤ u.calls) ∧
            (contentIdentity sdk path v).1 = .ok identity) (fun u hu =>
            ?_) (fun identity => ?_) v rfl
        · rw [hu]
          refine ⟨fun identity u' hrun => ⟨hcontent.1 identity u' hrun, by rw [hrun]⟩,
            fun e u' hrun => ?_⟩
          obtain ⟨hstate, hcalls⟩ := hcontent.2 e u' hrun
          exact ⟨hstate, hv.2.trans hcalls⟩
        · split
          next hsame =>
            refine .pure fun u hu => ⟨⟨hu.1.1, hv.2.trans hu.1.2⟩, fun idle' heq => ?_⟩
            cases heq
            refine ⟨hidle, hmatch.2, hmatch.1, saved, v, hv.2, hu.1.2, hidentity, ?_⟩
            rw [hu.2, ← hsame]
          next => exact .pure fun u hu => ⟨⟨hu.1.1, hv.2.trans hu.1.2⟩, nofun⟩
    next => exact hnone w hw

/-- Where the owner of a new session comes from. -/
def Origin (sdk : Sdk) (path : Path) (id : Nat) (w : World) (hi : Nat) (handle : Handle) : Prop :=
  Fresh sdk path (sessionName id) false w.calls hi handle ∨
    ∃ idle, Handed sdk path w hi idle ∧ handle = idle.handle

/-- What an open has registered: a session with the next number, with a fresh owner or the idle
one. -/
structure Registered (sdk : Sdk) (path : Path) (w : World) (opened : Opened) (w' : World) :
    Prop where
  id : opened.id = w.state.nextId + 1
  next : w'.state.nextId = opened.id
  session : ∃ file handle, w'.state.files[opened.id]? = some file ∧ file.path = path ∧
    file.native = some handle ∧ file.resolution = handle.owner.header.resolution ∧
      Origin sdk path opened.id w w'.calls handle

/-- Opening a file keeps the invariant and registers a session for it, with a parked handle or a new
one. -/
theorem open_triple (sdk : Sdk) (path : Path) (sourceName : String)
    (hP : ∀ header : Meta, P header.resolution header) (hs : w₀.state.Sound P issued) :
    Decoder.Triple (fun w => w = w₀) («open» sdk path sourceName)
      (fun opened w => Holds P issued w₀.calls w ∧ Registered sdk path w₀ opened w)
      fun _ => Holds P issued w₀.calls := by
  refine Decoder.Triple.bind (Q := fun state w => w = w₀ ∧ state = w₀.state)
    (.look fun w hw => ⟨hw, hw ▸ rfl⟩) fun state => ?_
  rintro w ⟨rfl, rfl⟩
  dsimp only
  split
  · exact raise_error_triple (P := fun v => v = w)
      (fun v hv => by rw [hv]; exact ⟨hs, le_rfl⟩) w rfl
  next hnext =>
  set id := w.state.nextId + 1 with hid
  set v₀ : World := { w with state := { w.state with nextId := id } } with hv₀
  set s : State := ({ v₀.state with idle := none } : State).reset with hs'
  have hsound : ∀ resolution, ({ s with resolution := resolution } : State).Sound P issued :=
    ((hs.advance (Nat.le_succ _)).dropIdle).reset
  have herror : ∀ (e : Error) (v : World), v.state = s ∧ w.calls ≤ v.calls →
      Holds P issued w.calls v := fun e v hv => ⟨hv.1 ▸ hsound none, hv.2⟩
  refine Decoder.Triple.bind (modify_triple (P := fun v => v = w) (Q := fun _ v => v = v₀)
    fun v hv => by rw [hv]) (fun _ => ?_) w rfl
  refine Decoder.Triple.bind ((takeIdle_triple sdk path v₀).mono (fun _ hv => hv) (fun _ _ hv => hv)
    fun e v hv => ⟨?_, hv.2⟩) fun reused => ?_
  · rw [hv.1]
    exact (hs.advance (Nat.le_succ _)).dropIdle
  refine Decoder.Triple.bind (modify_triple (Q := fun _ v => (v.state = s ∧ w.calls ≤ v.calls) ∧
    ∀ idle, reused = some idle → Handed sdk path v₀ v.calls idle)
    fun v hv => by rw [hv.1.1]; exact ⟨⟨rfl, hv.1.2⟩, hv.2⟩) fun _ => ?_
  -- What is left to do with the handle of the session.
  have hrest : ∀ handle : Handle, Decoder.Triple
      (fun v : World => (v.state = s ∧ w.calls ≤ v.calls) ∧ handle.Clean ∧
        Origin sdk path id w v.calls handle)
      (do
        modify fun state => { state with resolution := some handle.owner.header.resolution }
        let metadata ← raise (metadata handle.owner.header sourceName)
        let declared ← raise (declarations 0 handle.owner.declarations)
        modify (·.put id ⟨path, sessionName id, handle.owner.header.resolution,
          handle.owner.header.last, declared.map Declaration.encoding, some handle, none⟩)
        pure ⟨id, metadata, declared⟩)
      (fun opened v => Holds P issued w.calls v ∧ Registered sdk path w opened v)
      fun _ => Holds P issued w.calls := by
    intro handle
    set s' : State := { s with resolution := some handle.owner.header.resolution } with hs''
    refine Decoder.Triple.bind (modify_triple (Q := fun _ v => (v.state = s' ∧ w.calls ≤ v.calls) ∧
      handle.Clean ∧ Origin sdk path id w v.calls handle)
      fun v hv => by rw [hv.1.1]; exact ⟨⟨rfl, hv.1.2⟩, hv.2⟩) fun _ => ?_
    have hfail : ∀ (e : Error) (v : World), (v.state = s' ∧ w.calls ≤ v.calls) ∧ handle.Clean ∧
        Origin sdk path id w v.calls handle → Holds P issued w.calls v :=
      fun e v hv => ⟨hv.1.1 ▸ hsound _, hv.1.2⟩
    refine Decoder.Triple.bind (raise_triple (Q := fun _ v => (v.state = s' ∧ w.calls ≤ v.calls) ∧
      handle.Clean ∧ Origin sdk path id w v.calls handle)
      (fun _ _ _ hv => hv) fun e v _ => hfail e v) fun metadata => ?_
    refine Decoder.Triple.bind (raise_triple (Q := fun _ v => (v.state = s' ∧ w.calls ≤ v.calls) ∧
      handle.Clean ∧ Origin sdk path id w v.calls handle)
      (fun _ _ _ hv => hv) fun e v _ => hfail e v) fun declared => ?_
    refine Decoder.Triple.bind (modify_triple
      (Q := fun _ v => Holds P issued w.calls v ∧ Registered sdk path w ⟨id, metadata, declared⟩ v)
      fun v hv => ?_) fun _ => .pure fun _ hv => hv
    obtain ⟨⟨hstate, hcalls⟩, hclean, horigin⟩ := hv
    rw [hstate]
    refine ⟨⟨(hsound _).put le_rfl rfl fun handle' heq => ?_, hcalls⟩, rfl, rfl,
      ⟨path, sessionName id, handle.owner.header.resolution, handle.owner.header.last,
        declared.map Declaration.encoding, some handle, none⟩, handle, ?_, rfl, rfl, rfl, horigin⟩
    · cases heq
      exact ⟨rfl, hclean, hP _⟩
    · exact Std.HashMap.getElem?_insert_self
  cases reused with
  | some idle =>
    refine Decoder.Triple.bind (.pure fun v hv => ?_) hrest
    have hhanded := hv.2 idle rfl
    refine ⟨hv.1, ?_, .inr ⟨idle, ⟨hhanded.parked, hhanded.source, hhanded.resolution,
      hhanded.identity⟩, rfl⟩⟩
    exact ((hs.idle idle hhanded.parked).2.2.1).clean
  | none =>
    refine Decoder.Triple.bind ((openHandle_triple sdk path (sessionName id) false s w.calls).mono
      (fun v hv => hv.1) (fun handle v hv => ⟨⟨hv.1, hv.2.1⟩, fun _ => hv.2.2.unfailed,
      .inl hv.2.2⟩)
      herror) hrest

/-- Reading the metadata keeps the invariant: its session is not registered. -/
theorem readMetadata_triple (sourceName : String) (hs : w₀.state.Sound P issued) :
    Decoder.Triple (fun w => w = w₀) (readMetadata sdk path sourceName)
      (fun _ => Holds P issued w₀.calls) fun _ => Holds P issued w₀.calls := by
  have hsound : w₀.state.reset.Sound P issued := hs.reset none
  have hholds : ∀ v : World, v.state = w₀.state.reset ∧ w₀.calls ≤ v.calls →
      Holds P issued w₀.calls v := fun v hv => ⟨hv.1 ▸ hsound, hv.2⟩
  refine Decoder.Triple.bind (modify_triple
    (Q := fun _ v => v.state = w₀.state.reset ∧ w₀.calls ≤ v.calls)
    fun v hv => by rw [hv]; exact ⟨rfl, le_rfl⟩) fun _ => ?_
  refine Decoder.Triple.bind ((openHandle_triple sdk path (ascii "metadata") true _ w₀.calls).mono
    (fun _ hv => hv) (fun _ v hv => hholds v ⟨hv.1, hv.2.1⟩) fun _ => hholds) fun handle => ?_
  exact raise_triple (fun _ _ _ hv => hv) fun _ _ _ hv => hv

/-- Ending a query keeps the invariant. -/
theorem end_triple (hs : w₀.state.Sound P issued) :
    Decoder.Triple (fun w => w = w₀) («end» id)
      (fun _ => Holds P issued w₀.calls) fun _ => Holds P issued w₀.calls := by
  refine Decoder.Triple.bind (Q := fun found w => w = w₀ ∧ found = w₀.state.files[id]?)
    (.look fun w hw => ⟨hw, hw ▸ rfl⟩) fun found => ?_
  cases found with
  | none => exact .pure fun w hw => by rw [hw.1]; exact ⟨hs, le_rfl⟩
  | some file =>
    refine modify_triple fun w hw => ?_
    rw [hw.1]
    have hfile := hw.2.symm
    refine ⟨hs.put (hs.ids id file hfile) (hs.idle_none hfile) fun handle heq => ?_, le_rfl⟩
    obtain ⟨handle', hnative, rfl⟩ := Option.map_eq_some_iff.1 heq
    obtain ⟨hresolution, hfits⟩ := hs.live id file handle' hfile hnative
    exact ⟨hresolution, hfits.clean, hfits.header⟩

/-- Closing a session keeps the invariant, whether its handle is parked or dropped. -/
theorem close_triple (allowIdle : Bool) (hs : w₀.state.Sound P issued) :
    Decoder.Triple (fun w => w = w₀) (close sdk id allowIdle)
      (fun _ => Holds P issued w₀.calls) fun _ => Holds P issued w₀.calls := by
  refine Decoder.Triple.bind (Q := fun found w => w = w₀ ∧ found = w₀.state.files[id]?)
    (.look fun w hw => ⟨hw, hw ▸ rfl⟩) fun found => ?_
  cases found with
  | none => exact .pure fun w hw => by rw [hw.1]; exact ⟨hs, le_rfl⟩
  | some file =>
    rintro w ⟨rfl, hfile⟩
    set s : State := { w.state with files := w.state.files.erase id } with hs'
    have hsound : s.Sound P issued := hs.erase (hs.idle_none hfile.symm) id
    have hkeep : ∀ v : World, v.state = s ∧ w.calls ≤ v.calls → Holds P issued w.calls v :=
      fun v hv => ⟨hv.1 ▸ hsound, hv.2⟩
    have hdrop : Decoder.Triple (fun v : World => v.state = s ∧ w.calls ≤ v.calls)
        (pure () : Job Unit) (fun _ => Holds P issued w.calls) fun _ => Holds P issued w.calls :=
      .pure hkeep
    refine Decoder.Triple.bind (modify_triple (P := fun v => v = w)
      (Q := fun _ v => v.state = s ∧ w.calls ≤ v.calls)
      fun v hv => by rw [hv]; exact ⟨rfl, le_rfl⟩) (fun _ => ?_) w rfl
    refine Decoder.Triple.bind
      (Q := fun state v => (v.state = s ∧ w.calls ≤ v.calls) ∧ state = s)
      (.look fun v hv => ⟨hv, hv.1⟩) fun state => ?_
    rintro v ⟨hv, rfl⟩
    cases hnative : file.native with
    | none => exact hdrop v hv
    | some handle =>
      dsimp only
      split
      next hpark =>
        obtain ⟨-, hempty, hidentity, hreusable, hresolution⟩ := hpark
        obtain ⟨-, hfits⟩ := hs.live id file handle hfile.symm hnative
        refine Calling.before (calling_call sdk.park) (fun _ => hkeep) (fun parked => ?_) v hv
        split
        · refine modify_triple fun u hu => ?_
          rw [hu.1]
          exact ⟨hsound.park hempty hresolution ⟨hfits.clean, hfits.header⟩ hreusable hidentity,
            hu.2⟩
        · exact hdrop
      next => exact hdrop v hv

end

/-! ## Runs of jobs -/

/-- A job that a client sends to the worker. -/
inductive Command where
  | «open» (path : Path) (sourceName : String)
  | readMetadata (path : Path) (sourceName : String)
  | begin (id : Nat) (indices : List Nat) (start stop : Nat)
  | next (id : Nat)
  | sampleBits (id : Nat) (indices : List Nat) (projections : List (Nat × Signal)) (time : Nat)
  | «end» (id : Nat)
  | close (id : Nat) (allowIdle : Bool)

/-- What a job answers. -/
inductive Answer where
  | opened (opened : Opened)
  | metadata (metadata : Metadata)
  | batch (batch : Batch)
  | samples (samples : List Query.Sample)
  | done
  deriving DecidableEq

/-- The job of a command. -/
def Command.job (sdk : Sdk) : Command → Job Answer
  | .open path sourceName => do pure (.opened (← Wlf.open sdk path sourceName))
  | .readMetadata path sourceName => do pure (.metadata (← Wlf.readMetadata sdk path sourceName))
  | .begin id indices start stop => do
    Wlf.begin sdk id indices start stop
    pure .done
  | .next id => do pure (.batch (← Wlf.next sdk id))
  | .sampleBits id indices projections time => do
    pure (.samples (← Wlf.sampleBits sdk id indices projections time))
  | .end id => do
    Wlf.end id
    pure .done
  | .close id allowIdle => do
    Wlf.close sdk id allowIdle
    pure .done

/-- The outcomes of jobs that run one after the other, whether they fail or not, and the world they
leave. -/
def runJobs (sdk : Sdk) : List Command → World → List (Except Error Answer) × World
  | [], w => ([], w)
  | command :: commands, w =>
    match command.job sdk w with
    | (result, w) =>
      match runJobs sdk commands w with
      | (results, w) => (result :: results, w)

/-- The number of the session that a job has opened. -/
def openedId : Except Error Answer → Option Nat
  | .ok (.opened opened) => some opened.id
  | _ => none

/-- The files of the registered sessions keep, over every job, what was asked of their headers. -/
def SteadyRun (sdk : Sdk) (P : Nat → Meta → Prop) : List Command → World → Prop
  | [], _ => True
  | command :: commands, w =>
    Steady sdk P w (command.job sdk w).2.calls ∧ SteadyRun sdk P commands (command.job sdk w).2

/-- A header has the resolution that was recorded. -/
def SameResolution (resolution : Nat) (header : Meta) : Prop := header.resolution = resolution

/-- An owner that is live in a state, in a session or idle. -/
def State.Owns (state : State) (handle : Handle) : Prop :=
  (∃ (id : Nat) (file : File), state.files[id]? = some file ∧ file.native = some handle) ∨
    ∃ idle, state.idle = some idle ∧ idle.handle = handle

section
variable {sdk : Sdk} {P : Nat → Meta → Prop} {w w' : World} {issued : Nat}

/-- A job that only answers after another one. -/
theorem answer_eq {α : Type} {x : Job α} {f : α → Answer} {result : Except Error Answer}
    (h : (x >>= fun a => (pure (f a) : Job Answer)) w = (result, w')) :
    ∃ result', x w = (result', w') ∧ result = result'.map f := by
  rcases hx : x w with ⟨e | a, v⟩
  · rw [Decoder.bind_of_error hx] at h
    cases h
    exact ⟨_, rfl, rfl⟩
  · rw [Decoder.bind_of_ok hx] at h
    cases h
    exact ⟨_, rfl, rfl⟩

/-- What holds after a job whatever its outcome holds after its answer. -/
theorem holds_of_triple {α : Type} {x : Job α} {Q : World → Prop} {result : Except Error α}
    (h : Decoder.Triple (fun v => v = w) x (fun _ => Q) fun _ => Q) (hrun : x w = (result, w')) :
    Q w' := by
  cases result with
  | ok a => exact (h w rfl).1 a w' hrun
  | error e => exact (h w rfl).2 e w' hrun

/-- Every job keeps the state sound. A session that it opens has the next number. -/
theorem job_sound (hP : ∀ header : Meta, P header.resolution header) (command : Command)
    {result : Except Error Answer} (hs : w.state.Sound P issued)
    (hrun : command.job sdk w = (result, w')) (hsteady : Steady sdk P w w'.calls) :
    w'.state.Sound P issued ∧
      ∀ id, openedId result = some id → id = w.state.nextId + 1 ∧ w'.state.nextId = id := by
  cases command with
  | «open» path sourceName =>
    obtain ⟨result', hopen, rfl⟩ := answer_eq hrun
    have htriple := open_triple sdk path sourceName hP hs
    cases result' with
    | ok opened =>
      obtain ⟨hholds, hregistered⟩ := (htriple w rfl).1 opened w' hopen
      refine ⟨hholds.1, fun id heq => ?_⟩
      cases heq
      exact ⟨hregistered.id, hregistered.next⟩
    | error e => exact ⟨((htriple w rfl).2 e w' hopen).1, nofun⟩
  | readMetadata path sourceName =>
    obtain ⟨result', hread, rfl⟩ := answer_eq hrun
    refine ⟨(holds_of_triple (readMetadata_triple sourceName hs) hread).1, fun id heq => ?_⟩
    cases result' <;> cases heq
  | begin id indices start stop =>
    obtain ⟨result', hbegin, rfl⟩ := answer_eq (f := fun _ => .done) hrun
    refine ⟨(begin_sound hs hbegin hsteady).1, fun id heq => ?_⟩
    cases result' <;> cases heq
  | next id =>
    obtain ⟨result', hnext, rfl⟩ := answer_eq hrun
    refine ⟨(next_sound hs hnext hsteady).1, fun id heq => ?_⟩
    cases result' <;> cases heq
  | sampleBits id indices projections time =>
    obtain ⟨result', hsample, rfl⟩ := answer_eq hrun
    refine ⟨(sampleBits_sound hs hsample hsteady).1, fun id heq => ?_⟩
    cases result' <;> cases heq
  | «end» id =>
    obtain ⟨result', hend, rfl⟩ := answer_eq (f := fun _ => .done) hrun
    refine ⟨(holds_of_triple (end_triple hs) hend).1, fun id heq => ?_⟩
    cases result' <;> cases heq
  | close id allowIdle =>
    obtain ⟨result', hclose, rfl⟩ := answer_eq (f := fun _ => .done) hrun
    refine ⟨(holds_of_triple (close_triple allowIdle hs) hclose).1, fun id heq => ?_⟩
    cases result' <;> cases heq

/-- Jobs keep the state sound, and number the sessions that they open upwards. -/
theorem runJobs_sound (hP : ∀ header : Meta, P header.resolution header) (commands : List Command)
    (hs : w.state.Sound P w.state.nextId) (hsteady : SteadyRun sdk P commands w) :
    (runJobs sdk commands w).2.state.Sound P w.state.nextId ∧
      (w.state.nextId :: (runJobs sdk commands w).1.filterMap openedId).Pairwise (· < ·) := by
  induction commands generalizing w with
  | nil => exact ⟨hs, List.pairwise_singleton _ _⟩
  | cons command commands ih =>
    rcases hrun : command.job sdk w with ⟨result, v⟩
    rw [SteadyRun, hrun] at hsteady
    obtain ⟨hsound, hopened⟩ := job_sound hP command hs hrun hsteady.1
    have hnext : w.state.nextId ≤ v.state.nextId := hsound.issued
    obtain ⟨hfinal, hids⟩ := ih ⟨hsound.live, hsound.idle, hsound.ids, le_rfl⟩ hsteady.2
    rw [runJobs, hrun]
    dsimp only
    refine ⟨⟨hfinal.live, hfinal.idle, hfinal.ids, hnext.trans hfinal.issued⟩, ?_⟩
    rw [List.pairwise_cons] at hids ⊢
    cases hid : openedId result with
    | none =>
      rw [List.filterMap_cons_none hid]
      exact ⟨fun id hmem => hnext.trans_lt (hids.1 id hmem), hids.2⟩
    | some id =>
      obtain ⟨hfirst, hlast⟩ := hopened id hid
      rw [List.filterMap_cons_some hid, List.pairwise_cons]
      rw [hlast] at hids
      refine ⟨fun id' hmem => ?_, hids.1, hids.2⟩
      rcases List.mem_cons.1 hmem with rfl | hmem
      · omega
      · have := hids.1 id' hmem
        omega

/-- A run starts with the answer of its first job. -/
theorem runJobs_cons {command : Command} {commands : List Command} {w w' : World}
    {answer : Except Error Answer} (h : command.job sdk w = (answer, w')) :
    runJobs sdk (command :: commands) w =
      (answer :: (runJobs sdk commands w').1, (runJobs sdk commands w').2) := by
  rw [runJobs, h]

/-- The files are steady over a run when they are over its first job and over the others. -/
theorem SteadyRun.cons {P : Nat → Meta → Prop} {command : Command}
    {commands : List Command} {w w' : World} {answer : Except Error Answer}
    (h : command.job sdk w = (answer, w')) (hsteady : ∀ hi, Steady sdk P w hi)
    (hrest : SteadyRun sdk P commands w') : SteadyRun sdk P (command :: commands) w := by
  rw [SteadyRun, h]
  exact ⟨hsteady _, hrest⟩

/-- A run of jobs goes on where those before have led. -/
theorem runJobs_append (commands more : List Command) (w : World) :
    runJobs sdk (commands ++ more) w =
      ((runJobs sdk commands w).1 ++ (runJobs sdk more (runJobs sdk commands w).2).1,
        (runJobs sdk more (runJobs sdk commands w).2).2) := by
  induction commands generalizing w with
  | nil => rfl
  | cons command commands ih => rw [List.cons_append, runJobs_cons rfl, ih, runJobs_cons rfl]; rfl

/-- The files are steady over a run when they are over its parts. -/
theorem SteadyRun.append {P : Nat → Meta → Prop} {commands more : List Command}
    {w : World} (h : SteadyRun sdk P commands w)
    (hmore : SteadyRun sdk P more (runJobs sdk commands w).2) :
    SteadyRun sdk P (commands ++ more) w := by
  induction commands generalizing w with
  | nil => exact hmore
  | cons command commands ih =>
    rw [runJobs_cons rfl] at hmore
    exact ⟨h.1, ih h.2 hmore⟩

/-- The header of a live owner has the selected resolution. -/
theorem State.Sound.owns {state : State} {handle : Handle}
    (hs : state.Sound SameResolution issued) (h : state.Owns handle) :
    state.resolution = some handle.owner.header.resolution := by
  rcases h with ⟨id, file, hfile, hnative⟩ | ⟨idle, hidle, rfl⟩
  · obtain ⟨hresolution, hfits⟩ := hs.live id file handle hfile hnative
    rw [hresolution, hfits.header]
  · obtain ⟨-, hresolution, hfits, -⟩ := hs.idle idle hidle
    rw [hresolution, hfits.header]

end

/-- **The state of the worker.** After any jobs, each failing or not at any call, while the files of
registered sessions keep the resolution of their headers: the owners that are live are of the
selected resolution, hence of one; an idle owner is alone, unfailed, and has a content identity; an
open takes over the idle owner for the same path, resolution and full identity only; and the numbers
of the sessions go upwards. -/
theorem worker_invariant (sdk : Sdk) (commands : List Command)
    (hsteady : SteadyRun sdk SameResolution commands ⟨State.initial, 0⟩) :
    let run := runJobs sdk commands ⟨State.initial, 0⟩
    let state := run.2.state
    (∀ (id : Nat) (file : File) (handle : Handle), state.files[id]? = some file →
      file.native = some handle → state.resolution = some file.resolution) ∧
    (∀ handle handle' : Handle, state.Owns handle → state.Owns handle' →
      handle.owner.header.resolution = handle'.owner.header.resolution) ∧
    (∀ idle, state.idle = some idle → state.resolution = some idle.resolution ∧
      state.files.isEmpty = true ∧ idle.handle.reusable = true ∧
        idle.handle.owner.failures = 0 ∧ idle.handle.identity.isSome = true) ∧
    (∀ path taken w', takeIdle sdk path run.2 = (.ok (some taken), w') →
      Handed sdk path run.2 w'.calls taken) ∧
    (∀ path sourceName opened w', «open» sdk path sourceName run.2 = (.ok opened, w') →
      Registered sdk path run.2 opened w') ∧
    (run.1.filterMap openedId).Pairwise (· < ·) := by
  obtain ⟨hs, hids⟩ := runJobs_sound (fun _ => rfl) commands State.sound_initial hsteady
  dsimp only
  refine ⟨fun id file handle hfile hnative => (hs.live id file handle hfile hnative).1,
    fun handle handle' h h' => ?_, fun idle hidle => ?_, fun path taken w' htake => ?_,
    fun path sourceName opened w' hopen => ?_, (List.pairwise_cons.1 hids).2⟩
  · have hresolution := (hs.owns h).symm.trans (hs.owns h')
    exact Option.some.inj hresolution
  · obtain ⟨hempty, hresolution, hfits, hreusable, hidentity⟩ := hs.idle idle hidle
    exact ⟨hresolution, hempty, hreusable, hfits.clean hreusable, hidentity⟩
  · exact ((takeIdle_triple sdk path _ _ rfl).1 (some taken) w' htake).2 taken rfl
  · exact ((open_triple sdk path sourceName (fun _ => rfl) hs _ rfl).1 opened w' hopen).2

/-- A library whose calls all succeed, with empty files of the resolution 9. -/
def emptyFiles : Sdk where
  stat _ _ := some ⟨0, 0, 0, 0, 0, 0, 0⟩
  openFile _ _ := true
  fstat _ := some ⟨0, 0, 0, 0, 0, 0, 0⟩
  read _ _ := some []
  digest _ := []
  openOwner _ _ _ _ := .ok (some (⟨0, 5, 9, none⟩, []))
  begin _ _ _ _ _ _ := .ok []
  pointStart _ _ _ := .ok none
  next _ := none
  batchEnd _ _ := 0
  park _ := true

/-- The owner of such a file. -/
def emptyHandle : Handle :=
  ⟨⟨[97], ⟨0, 5, 9, none⟩, [], [], 0⟩, some ⟨⟨0, 0, 0, 0, 0, 0, 0⟩, []⟩, true⟩

/-- Its session, with a query. -/
def emptySession (id : Nat) (query : Option Query) : File :=
  ⟨[97], sessionName id, 9, 5, [], some emptyHandle, query⟩

/-- A session is opened, reads a query to its end, and is closed. -/
def oneSession : List Command :=
  [.open [97] "a", .begin 1 [] 0 5, .next 1, .end 1, .close 1 true]

/-- The file keeps its resolution while its sessions are registered. -/
theorem emptyFiles_steady {state : State} (calls hi : Nat)
    (h : ∀ (id : Nat) (file : File), state.files[id]? = some file → file.resolution = 9) :
    Steady emptyFiles SameResolution ⟨state, calls⟩ hi := by
  intro id file k header declarations hfile _ _ hopen
  cases hopen
  exact (h id file hfile).symm

/-- Registering such a session keeps this. -/
theorem emptySession_put (state : State)
    (h : ∀ (id : Nat) (file : File), state.files[id]? = some file → file.resolution = 9)
    (id : Nat) (query : Option Query) (id' : Nat) (file : File)
    (hfile : (state.put id (emptySession id query)).files[id']? = some file) :
    file.resolution = 9 := by
  rw [State.put, Std.HashMap.getElem?_insert] at hfile
  split at hfile
  · cases hfile
    rfl
  · exact h id' file hfile

/-- The session leaves its owner. -/
theorem oneSession_parks : ∃ (files : Std.HashMap Nat File) (answers : List (Except Error Answer)),
    runJobs emptyFiles oneSession ⟨State.initial, 0⟩ =
      (answers, ⟨⟨files, 1, some 9, some ⟨[97], 9, emptyHandle⟩⟩, 11⟩) ∧
    SteadyRun emptyFiles SameResolution oneSession ⟨State.initial, 0⟩ ∧ files.isEmpty = true ∧
    answers.filterMap openedId = [1] := by
  set header : Metadata := ⟨"a", some ⟨1, .microsecond⟩, some ⟨0, 5⟩, none, none, []⟩
  have hheader : metadata ⟨0, 5, 9, none⟩ "a" = .ok header := by decide
  set files := State.initial.reset.files with hfiles
  have hempty : ∀ id : Nat, files[id]? = none :=
    fun id => by simp [files, State.initial, State.reset]
  set opened : State := State.put ⟨files, 1, some 9, none⟩ 1 (emptySession 1 none) with hopened
  set begun := opened.put 1 (emptySession 1 (some ⟨[], [], 0, 5, none, false⟩)) with hbegun
  set read := begun.put 1 (emptySession 1 (some ⟨[], [], 0, 5, none, true⟩)) with hread
  set ended := read.put 1 (emptySession 1 none) with hended
  have hlook : ∀ (state : State) (query : Option Query),
      (state.put 1 (emptySession 1 query)).files[1]? = some (emptySession 1 query) :=
    fun state query => Std.HashMap.getElem?_insert_self
  have hfile : ∀ (state : State) (query : Option Query) (calls : Nat), state.resolution = some 9 →
      file emptyFiles 1 ⟨state.put 1 (emptySession 1 query), calls⟩ =
        (.ok (emptySession 1 query, emptyHandle), ⟨state.put 1 (emptySession 1 query), calls⟩) :=
    fun state query calls hselected => file_live (hlook state query) rfl hselected
  have hhandle : openHandle emptyFiles [97] (sessionName 1) false ⟨⟨files, 1, none, none⟩, 0⟩ =
      (.ok emptyHandle, ⟨⟨files, 1, none, none⟩, 8⟩) := rfl
  have hopen : «open» emptyFiles [97] "a" ⟨State.initial, 0⟩ = (.ok ⟨1, header, []⟩, ⟨opened, 8⟩) :=
    open_new (w := ⟨State.initial, 0⟩) (v := ⟨⟨∅, 1, none, none⟩, 0⟩)
      (u := ⟨⟨files, 1, none, none⟩, 8⟩) (by decide) rfl hhandle hheader rfl
  have hbegin : begin emptyFiles 1 [] 0 5 ⟨opened, 8⟩ = (.ok (), ⟨begun, 9⟩) :=
    begin_eq (hfile _ none 8 rfl) rfl rfl
  have hloop : nextLoop emptyFiles 1 ⟨[], [], 0, 5, none, false⟩ [] ⟨emptyHandle, 9⟩ =
      (.ok (⟨[], true, none⟩, ⟨[], [], 0, 5, none, true⟩), ⟨emptyHandle, 10⟩) := rfl
  have hnext : next emptyFiles 1 ⟨begun, 9⟩ = (.ok ⟨[], true, none⟩, ⟨read, 10⟩) := by
    have hrun := next_eq (hfile opened (some ⟨[], [], 0, 5, none, false⟩) 9 rfl) rfl rfl hloop
    exact hrun
  have hend : «end» 1 ⟨read, 10⟩ = (.ok (), ⟨ended, 10⟩) := by
    have hrun := end_eq (w := ⟨read, 10⟩) (hlook begun (some ⟨[], [], 0, 5, none, true⟩))
    exact hrun
  have hlast : (ended.files.erase 1).isEmpty = true := by
    rw [Std.HashMap.isEmpty_iff_forall_not_mem]
    intro id hid
    simp [ended, read, begun, opened, State.put, files, State.initial, State.reset] at hid
  have hclose : close emptyFiles 1 true ⟨ended, 10⟩ =
      (.ok (), ⟨⟨ended.files.erase 1, 1, some 9, some ⟨[97], 9, emptyHandle⟩⟩, 11⟩) := by
    have hpark : emptyFiles.park 10 = true := rfl
    have hrun := close_parked (w := ⟨ended, 10⟩) (hlook read none) rfl hlast rfl rfl rfl hpark
    exact hrun
  have hsteady : ∀ (id : Nat) (file : File), files[id]? = some file → file.resolution = 9 :=
    fun id file hfile => by rw [hempty] at hfile; cases hfile
  have hsteady₁ : ∀ (id : Nat) (file : File), opened.files[id]? = some file → file.resolution = 9 :=
    emptySession_put ⟨files, 1, some 9, none⟩ hsteady 1 none
  have hsteady₂ : ∀ (id : Nat) (file : File), begun.files[id]? = some file → file.resolution = 9 :=
    emptySession_put _ hsteady₁ 1 _
  have hsteady₃ : ∀ (id : Nat) (file : File), read.files[id]? = some file → file.resolution = 9 :=
    emptySession_put _ hsteady₂ 1 _
  have hsteady₄ : ∀ (id : Nat) (file : File), ended.files[id]? = some file → file.resolution = 9 :=
    emptySession_put _ hsteady₃ 1 none
  clear_value ended read begun opened files
  have hjob₁ : (Command.open [97] "a").job emptyFiles ⟨State.initial, 0⟩ =
      (.ok (.opened ⟨1, header, []⟩), ⟨opened, 8⟩) := Decoder.bind_eq_ok.2 ⟨_, _, hopen, rfl⟩
  have hjob₂ : (Command.begin 1 [] 0 5).job emptyFiles ⟨opened, 8⟩ = (.ok .done, ⟨begun, 9⟩) :=
    Decoder.bind_eq_ok.2 ⟨_, _, hbegin, rfl⟩
  have hjob₃ : (Command.next 1).job emptyFiles ⟨begun, 9⟩ =
      (.ok (.batch ⟨[], true, none⟩), ⟨read, 10⟩) := Decoder.bind_eq_ok.2 ⟨_, _, hnext, rfl⟩
  have hjob₄ : (Command.end 1).job emptyFiles ⟨read, 10⟩ = (.ok .done, ⟨ended, 10⟩) :=
    Decoder.bind_eq_ok.2 ⟨_, _, hend, rfl⟩
  have hjob₅ : (Command.close 1 true).job emptyFiles ⟨ended, 10⟩ =
      (.ok .done, ⟨⟨ended.files.erase 1, 1, some 9, some ⟨[97], 9, emptyHandle⟩⟩, 11⟩) :=
    Decoder.bind_eq_ok.2 ⟨_, _, hclose, rfl⟩
  refine ⟨ended.files.erase 1, [.ok (.opened ⟨1, header, []⟩), .ok .done,
    .ok (.batch ⟨[], true, none⟩), .ok .done, .ok .done], ?_, ?_, hlast, rfl⟩
  · rw [oneSession, runJobs_cons hjob₁, runJobs_cons hjob₂, runJobs_cons hjob₃, runJobs_cons hjob₄,
      runJobs_cons hjob₅, runJobs]
  · refine .cons hjob₁ (fun hi => emptyFiles_steady 0 hi fun id file hfile => ?_) ?_
    · simp [State.initial] at hfile
    · exact .cons hjob₂ (fun hi => emptyFiles_steady 8 hi hsteady₁) <|
        .cons hjob₃ (fun hi => emptyFiles_steady 9 hi hsteady₂) <|
        .cons hjob₄ (fun hi => emptyFiles_steady 10 hi hsteady₃) <|
        .cons hjob₅ (fun hi => emptyFiles_steady 10 hi hsteady₄) True.intro
/-- The next session on the file is opened with the owner that the first one left. -/
theorem worker_invariant_reused :
    let parked := runJobs emptyFiles oneSession ⟨State.initial, 0⟩
    let reopened := runJobs emptyFiles (oneSession ++ [.open [97] "a"]) ⟨State.initial, 0⟩
    (∃ idle, parked.2.state.idle = some idle ∧ parked.2.state.resolution = some idle.resolution ∧
      parked.2.state.files.isEmpty = true ∧ idle.handle.reusable = true ∧
        idle.handle.owner.failures = 0 ∧ idle.handle.identity.isSome = true) ∧
    (∃ taken w', takeIdle emptyFiles [97] parked.2 = (.ok (some taken), w') ∧
      Handed emptyFiles [97] parked.2 w'.calls taken) ∧
    (∃ file handle, reopened.2.state.files[2]? = some file ∧ file.native = some handle ∧
      reopened.2.state.resolution = some file.resolution) ∧
    reopened.1.filterMap openedId = [1, 2] ∧ (reopened.1.filterMap openedId).Pairwise (· < ·) := by
  intro parked reopened
  obtain ⟨files, answers, hrun, hsteady, hempty, hids⟩ := oneSession_parks
  set idle : Idle := ⟨[97], 9, emptyHandle⟩
  set w : World := ⟨⟨files, 1, some 9, some idle⟩, 11⟩ with hw
  have hparked : parked = (answers, w) := hrun
  have hfiles : ∀ (id : Nat) (file : File), files[id]? = some file → file.resolution = 9 := by
    intro id file hfile
    rw [Std.HashMap.getElem?_eq_none (Std.HashMap.isEmpty_iff_forall_not_mem.1 hempty id)] at hfile
    cases hfile
  -- The second session takes the owner over.
  set header : Metadata := ⟨"a", some ⟨1, .microsecond⟩, some ⟨0, 5⟩, none, none, []⟩
  have hheader : metadata ⟨0, 5, 9, none⟩ "a" = .ok header := by decide
  have htake : ∀ nextId, takeIdle emptyFiles [97] ⟨⟨files, nextId, some 9, some idle⟩, 11⟩ =
      (.ok (some idle), ⟨⟨files, nextId, some 9, none⟩, 18⟩) := fun nextId => rfl
  have hid : w.state.nextId + 1 ≤ u64Max := show 2 ≤ u64Max by decide
  have hopen := open_reused hid (htake 2) hheader rfl
  obtain ⟨w', hjob⟩ : ∃ w', (Command.open [97] "a").job emptyFiles w =
      (.ok (.opened ⟨2, header, []⟩), w') ∧ w'.state.files[2]? = some (emptySession 2 none) :=
    ⟨_, Decoder.bind_eq_ok.2 ⟨_, _, hopen, rfl⟩, Std.HashMap.getElem?_insert_self⟩
  have hreopened : reopened = (answers ++ [.ok (.opened ⟨2, header, []⟩)], w') := by
    rw [show reopened = _ from runJobs_append _ _ _, hrun, runJobs_cons hjob.1, runJobs]
  have hsteady' : SteadyRun emptyFiles SameResolution (oneSession ++ [.open [97] "a"])
      ⟨State.initial, 0⟩ := by
    refine hsteady.append ?_
    rw [hrun]
    exact .cons hjob.1 (fun hi => emptyFiles_steady 11 hi hfiles) True.intro
  obtain ⟨-, -, hidle, hhanded, -, -⟩ := worker_invariant emptyFiles oneSession hsteady
  obtain ⟨hlive, -, -, -, -, hordered⟩ := worker_invariant emptyFiles _ hsteady'
  have hstate : parked.2.state.idle = some idle := by rw [hparked]
  have htaken : takeIdle emptyFiles [97] parked.2 =
      (.ok (some idle), ⟨⟨files, 1, some 9, none⟩, 18⟩) := by
    rw [hparked]
    exact htake 1
  have hfile : reopened.2.state.files[2]? = some (emptySession 2 none) := by
    rw [hreopened]
    exact hjob.2
  refine ⟨⟨idle, hstate, hidle idle hstate⟩, ⟨idle, _, htaken, hhanded [97] idle _ htaken⟩,
    ⟨emptySession 2 none, emptyHandle, hfile, rfl, hlive 2 _ _ hfile rfl⟩, ?_, hordered⟩
  rw [hreopened, List.filterMap_append, hids]
  rfl

end Ondas.Wlf
