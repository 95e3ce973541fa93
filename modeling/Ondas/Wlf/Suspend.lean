import Ondas.Wlf.Invariant

/-!
# Suspended queries

A job of another session may drop the owner of a session, and the traversal of its query with it.
The session restarts the query when it is used again, and `next` skips what it has transferred
before, up to the key of the last record. So the batches of a query have the records of one
traversal, each once and in order, whatever jobs of other sessions come in between
(`next_suspended`): this takes that the library replays the same records from every start
(`Replays`).

A job of another session leaves everything of a session but its owner (`Frame`), and every job
leaves owners of the files of their sessions (`State.Sourced`), so that a query restarts on its own
file. A session that has transferred some records (`Suspended`) has no owner, or one that is still
to pass the last of them (`Behind`).
-/

namespace Ondas.Wlf

open Library Job

/-! ## What other jobs leave -/

/-- A session stays as it is, but may lose its owner. -/
def Frame (id : Nat) (s s' : State) : Prop :=
  ∀ file, s.files[id]? = some file → ∃ native, (native = file.native ∨ native = none) ∧
    s'.files[id]? = some { file with native := native }

/-- A job that leaves a session, whatever its outcome. -/
def Frames {α : Type} (id : Nat) (x : Job α) : Prop := ∀ w, Frame id w.state (x w).2.state

section
variable {α β : Type} {id id' : Nat} {s s' s'' : State} {sdk : Sdk}

theorem Frame.refl (id : Nat) (s : State) : Frame id s s := fun file h => ⟨file.native, .inl rfl, h⟩

/-- Frames of two changes compose. -/
theorem Frame.trans (h : Frame id s s') (h' : Frame id s' s'') : Frame id s s'' := by
  intro file hfile
  obtain ⟨native, hnative, hfile'⟩ := h file hfile
  obtain ⟨native', hnative', hfile''⟩ := h' _ hfile'
  refine ⟨native', ?_, hfile''⟩
  rcases hnative' with rfl | rfl
  · exact hnative
  · exact .inr rfl

theorem Frames.pure (a : α) : Frames id (Pure.pure a : Job α) := fun w => .refl id w.state

theorem Frames.raise (result : Except Error α) : Frames id (raise result) :=
    fun w => .refl id w.state

theorem Frames.look (f : World → α) : Frames id (Decoder.look f : Job α) :=
    fun w => .refl id w.state

theorem Frames.call (f : Nat → α) : Frames id (call f) := fun w => .refl id w.state

theorem Frames.onHandle (handle : Handle) (x : OnHandle α) : Frames id (onHandle handle x) :=
  fun w => .refl id w.state

/-- Two jobs that keep a session keep it together. -/
theorem Frames.bind {x : Job α} {f : α → Job β} (hx : Frames id x) (hf : ∀ a, Frames id (f a)) :
    Frames id (x >>= f) := by
  intro w
  have hfirst := hx w
  rcases hrun : x w with ⟨e | a, w'⟩ <;> rw [hrun] at hfirst
  · rw [Decoder.bind_of_error hrun]
    exact hfirst
  · rw [Decoder.bind_of_ok hrun]
    exact hfirst.trans (hf a w')

theorem Frames.modify {f : State → State} (h : ∀ s, Frame id s (f s)) : Frames id (modify f) :=
  fun w => h w.state

/-- The sessions are not changed. -/
theorem Frames.same {f : State → State} (h : ∀ s, (f s).files = s.files) :
    Frames id (Job.modify f) :=
  .modify fun s file hfile => ⟨file.native, .inl rfl, by rw [h]; exact hfile⟩

/-- A job that starts with a look at the state. -/
theorem frame_look {f : State → Job α} {w : World} (h : Frames id (f w.state)) :
    Frame id w.state ((Decoder.look World.state >>= f) w).2.state := h w

/-- A job that only calls the environment. -/
theorem Calling.frames {x : Job α} (hx : Calling x) : Frames id x := by
  intro w
  have htriple := hx w.state 0 w ⟨rfl, Nat.zero_le _⟩
  rcases hrun : x w with ⟨e | a, w'⟩
  · rw [(htriple.2 e w' hrun).1]
    exact .refl id w.state
  · rw [(htriple.1 a w' hrun).1]
    exact .refl id w.state

/-- Opening a handle keeps every session. -/
theorem openHandle_frames (sdk : Sdk) (path name : Path) (metadataOnly : Bool) :
    Frames id (openHandle sdk path name metadataOnly) := by
  intro w
  have htriple := openHandle_triple sdk path name metadataOnly w.state 0 w ⟨rfl, Nat.zero_le _⟩
  rcases hrun : openHandle sdk path name metadataOnly w with ⟨e | a, w'⟩
  · rw [(htriple.2 e w' hrun).1]
    exact .refl id w.state
  · rw [(htriple.1 a w' hrun).1]
    exact .refl id w.state

theorem frame_reset (s : State) : Frame id s s.reset := by
  intro file hfile
  exact ⟨none, .inr rfl, by rw [State.files_reset, hfile, Option.map_some]⟩

/-- Choosing a resolution keeps the sessions. -/
theorem frame_selectResolution (s : State) (resolution : Nat) :
    Frame id s (s.selectResolution resolution) := by
  unfold State.selectResolution
  split
  · exact .refl id s
  · exact frame_reset s

/-- A change of another session keeps this one. -/
theorem frame_put (hne : id' ≠ id) (s : State) (file : File) : Frame id s (s.put id' file) := by
  intro file' hfile
  refine ⟨file'.native, .inl rfl, ?_⟩
  simp only [State.put, Std.HashMap.getElem?_insert]
  rw [if_neg (by simpa using hne)]
  exact hfile

/-- Closing another session keeps this one. -/
theorem frame_erase (hne : id' ≠ id) (s : State) :
    Frame id s { s with files := s.files.erase id' } := by
  intro file hfile
  refine ⟨file.native, .inl rfl, ?_⟩
  simp only [Std.HashMap.getElem?_erase]
  rw [if_neg (by simpa using hne)]
  exact hfile

/-- Looking up another session keeps this one. -/
theorem file_frames (hne : id' ≠ id) : Frames id (file sdk id') := by
  refine (Frames.look _).bind fun found => ?_
  cases found with
  | none => exact .raise _
  | some file =>
    refine (Frames.modify fun s => frame_selectResolution s _).bind fun _ =>
      (Frames.look _).bind fun found => ?_
    cases found.bind File.native with
    | some handle => exact .pure _
    | none =>
      refine (openHandle_frames sdk _ _ _).bind fun handle => ?_
      have hput : ∀ (file : File) (handle : Handle), Frames id (do
          Job.modify (·.put id' file)
          Pure.pure (file, handle)) := fun file handle =>
        (Frames.modify fun s => frame_put hne s _).bind fun _ => .pure _
      cases file.query with
      | none => exact (Frames.pure _).bind fun handle => hput _ handle
      | some query =>
        exact (Frames.onHandle _ _).bind fun r => (Frames.raise _).bind fun handle => hput _ handle

/-- Taking a parked handle keeps every session. -/
theorem takeIdle_frames (path : Path) : Frames id (takeIdle sdk path) := by
  refine (Frames.look _).bind fun state => (Frames.same fun s => by rfl).bind fun _ => ?_
  cases state.idle with
  | none => exact .pure none
  | some idle =>
    dsimp only
    split
    · cases idle.handle.identity with
      | none => exact .pure none
      | some saved =>
        refine (Frames.call _).bind fun metadata => ?_
        split
        · exact .pure none
        · refine (calling_contentIdentity sdk path).frames.bind fun identity => ?_
          split
          · exact .pure _
          · exact .pure none
    · exact .pure none

/-! ## Jobs of other sessions -/

/-- A job that is none of a session. -/
def Command.Other (id : Nat) : Command → Prop
  | .open .. => True
  | .readMetadata .. => True
  | .begin id' .. => id' ≠ id
  | .next id' => id' ≠ id
  | .sampleBits id' .. => id' ≠ id
  | .end id' => id' ≠ id
  | .close id' _ => id' ≠ id

/-- An open registers a session of its own. -/
theorem open_frame {w : World} (hid : id ≤ w.state.nextId) (path : Path) (sourceName : String) :
    Frame id w.state («open» sdk path sourceName w).2.state := by
  have hne : w.state.nextId + 1 ≠ id := by omega
  refine frame_look ?_
  dsimp only
  split
  · exact .raise _
  · refine (Frames.same fun s => by rfl).bind fun _ => (takeIdle_frames path).bind fun reused =>
      (Frames.modify fun s => frame_reset s).bind fun _ => ?_
    have hlast : ∀ handle : Handle, Frames id (do
        modify fun state => { state with resolution := some handle.owner.header.resolution }
        let metadata ← raise (metadata handle.owner.header sourceName)
        let declared ← raise (declarations 0 handle.owner.declarations)
        modify (·.put (w.state.nextId + 1) ⟨path, sessionName (w.state.nextId + 1),
          handle.owner.header.resolution, handle.owner.header.last,
          declared.map Declaration.encoding, some handle, none⟩)
        pure (⟨w.state.nextId + 1, metadata, declared⟩ : Opened)) := fun handle =>
      (Frames.same fun s => by rfl).bind fun _ => (Frames.raise _).bind fun _ =>
        (Frames.raise _).bind fun _ => (Frames.modify fun s => frame_put hne s _).bind fun _ =>
          .pure _
    cases reused with
    | some idle => exact (Frames.pure _).bind hlast
    | none => exact (openHandle_frames sdk _ _ _).bind hlast

/-- **A job of another session leaves a session**, but for its owner. -/
theorem other_frame {command : Command} (hother : command.Other id) {w : World}
    (hid : id ≤ w.state.nextId) : Frame id w.state (command.job sdk w).2.state := by
  -- What a job answers does not matter.
  have hanswer : ∀ {α : Type} {x : Job α} (f : α → Answer), Frame id w.state (x w).2.state →
      Frame id w.state ((x >>= fun a => (pure (f a) : Job Answer)) w).2.state := by
    intro α x f h
    rcases hrun : x w with ⟨e | a, w'⟩ <;> rw [hrun] at h
    · rw [Decoder.bind_of_error hrun]
      exact h
    · rw [Decoder.bind_of_ok hrun]
      exact h
  cases command with
  | «open» path sourceName => exact hanswer _ (open_frame hid path sourceName)
  | readMetadata path sourceName =>
    have hread : Frames id (readMetadata sdk path sourceName) :=
      (Frames.modify frame_reset).bind fun _ => (openHandle_frames sdk _ _ _).bind fun _ => .raise _
    exact hanswer _ (hread w)
  | begin id' indices start stop =>
    have hbegin : Frames id (begin sdk id' indices start stop) := by
      refine (file_frames hother).bind fun r => ?_
      dsimp only
      split
      · exact .raise _
      · refine (Frames.onHandle _ _).bind fun r => ?_
        split
        · exact (Frames.modify fun s => frame_put hother s _).bind fun _ => .raise _
        · exact .modify fun s => frame_put hother s _
    exact hanswer (fun _ => .done) (hbegin w)
  | next id' =>
    have hnext : Frames id (next sdk id') := by
      refine (file_frames hother).bind fun r => ?_
      dsimp only
      split
      · exact .raise _
      · split
        · exact .pure _
        · exact (Frames.onHandle _ _).bind fun r =>
            (Frames.modify fun s => frame_put hother s _).bind fun _ => .raise _
    exact hanswer _ (hnext w)
  | sampleBits id' indices projections time =>
    have hsample : Frames id (sampleBits sdk id' indices projections time) :=
      (file_frames hother).bind fun r => (Frames.onHandle _ _).bind fun r =>
        (Frames.modify fun s => frame_put hother s _).bind fun _ => .raise _
    exact hanswer _ (hsample w)
  | «end» id' =>
    have hend : Frames id («end» id') := by
      refine (Frames.look _).bind fun found => ?_
      cases found with
      | none => exact .pure _
      | some file => exact .modify fun s => frame_put hother s _
    exact hanswer (fun _ => .done) (hend w)
  | close id' allowIdle =>
    have hclose : Frames id (close sdk id' allowIdle) := by
      refine (Frames.look _).bind fun found => ?_
      cases found with
      | none => exact .pure _
      | some file =>
        refine (Frames.modify fun s => frame_erase hother s).bind fun _ =>
          (Frames.look _).bind fun state => ?_
        cases file.native with
        | none => exact .pure _
        | some handle =>
          dsimp only
          split
          · refine (Frames.call _).bind fun parked => ?_
            split
            · exact .same fun s => by rfl
            · exact .pure _
          · exact .pure _
    exact hanswer (fun _ => .done) (hclose w)

end

/-! ## The session of a job -/

section
variable {sdk : Sdk} {id : Nat}

/-- What a job finds of its session: the session as it was, with a live owner, which it had before
or which has restarted its query. -/
structure Found (sdk : Sdk) (id : Nat) (file : File) (r : File × Handle) (w : World) : Prop where
  same : r.1 = { file with native := some r.2 }
  registered : w.state.files[id]? = some r.1
  restarted : file.native = some r.2 ∨ ∀ query, file.query = some query → ∃ k,
    sdk.begin k file.path query.indices query.start query.stop false =
      .ok r.2.owner.traversal
  source : file.native = none → r.2.owner.path = file.path

/-- A session that is looked up is found, with a handle that is its own or a new one, or the lookup
fails and keeps it. -/
theorem file_found {w₀ : World} {f : File} (hfile : w₀.state.files[id]? = some f) :
    Decoder.Triple (fun w => w = w₀) (file sdk id) (Found sdk id f)
      fun _ w => Frame id w₀.state w.state := by
  refine Decoder.Triple.bind (Q := fun found w => w = w₀ ∧ found = some f)
    (.look fun w hw => ⟨hw, by rw [hw, hfile]⟩) fun found => ?_
  rintro w ⟨rfl, rfl⟩
  set s₁ := w.state.selectResolution f.resolution with hs₁
  obtain ⟨native, hnative, hfile₁⟩ := frame_selectResolution w.state f.resolution f hfile
  have hframe : Frame id w.state s₁ := frame_selectResolution w.state f.resolution
  refine Decoder.Triple.bind (modify_triple (P := fun v => v = w)
    (Q := fun _ v => v.state = s₁) fun v hv => by rw [hv]) (fun _ => ?_) w rfl
  refine Decoder.Triple.bind (Q := fun found v => v.state = s₁ ∧ found = s₁.files[id]?)
    (.look fun v hv => ⟨hv, by rw [hv]⟩) fun found => ?_
  rintro v ⟨hv, rfl⟩
  rw [hs₁, hfile₁]
  cases native with
  | some handle =>
    refine Decoder.Triple.pure (P := fun v => v.state = s₁) (fun v hv => ?_) v hv
    have hsome : f.native = some handle := (hnative.resolve_right nofun).symm
    refine ⟨rfl, by rw [hv]; exact hfile₁, .inl hsome, fun hnone => ?_⟩
    rw [hsome] at hnone
    cases hnone
  | none =>
    -- An owner that was opened anew is registered, with its query restarted.
    have hput : ∀ handle : Handle, Decoder.Triple (fun v : World => v.state = s₁ ∧
          handle.owner.path = f.path ∧ ∀ query, f.query = some query → ∃ k,
            sdk.begin k f.path query.indices query.start query.stop false =
              .ok handle.owner.traversal)
        (do
          modify (·.put id { f with native := some handle })
          pure ({ f with native := some handle }, handle))
        (Found sdk id f) fun _ v => Frame id w.state v.state := by
      intro handle
      refine Decoder.Triple.bind (modify_triple
        (Q := fun _ => Found sdk id f ({ f with native := some handle }, handle)) ?_)
        fun _ => .pure fun _ hv => hv
      rintro v ⟨-, hpath, hrestarted⟩
      exact ⟨rfl, Std.HashMap.getElem?_insert_self, .inr hrestarted, fun _ => hpath⟩
    refine Decoder.Triple.bind (Q := fun handle v => v.state = s₁ ∧ handle.owner.path = f.path)
      ((openHandle_triple sdk f.path f.name false s₁ 0).mono
      (fun v hv => ⟨hv, Nat.zero_le _⟩) (fun handle v hv => ⟨hv.1, hv.2.2.source⟩)
      fun e v hv => hv.1 ▸ hframe) (fun handle => ?_) v hv
    cases hquery : f.query with
    | none =>
      simp only [hquery] at hput
      refine Decoder.Triple.bind (.pure fun v hv => ?_) hput
      exact ⟨hv.1, hv.2, nofun⟩
    | some query =>
      simp only [hquery] at hput
      rintro v ⟨hv, hpath⟩
      refine Decoder.Triple.bind (onHandle_triple s₁ 0
        (R := fun result handle' => result.isOk = true → handle'.owner.path = f.path ∧ ∃ k,
          sdk.begin k f.path query.indices query.start query.stop false =
            .ok handle'.owner.traversal)
        fun k result live hk hrun => ⟨Nat.zero_le _, fun hok => ?_⟩) (fun r => ?_) v
        ⟨hv, Nat.zero_le _⟩
      · unfold beginNative at hrun
        split at hrun
        next records hbegin =>
          cases hrun
          rw [hpath] at hbegin
          exact ⟨hpath, k, hbegin⟩
        next => cases hrun; cases hok
      · obtain ⟨result, handle'⟩ := r
        refine Decoder.Triple.bind (raise_triple (fun handle u heq hu => ?_) fun e u _ hu =>
          hu.1.1 ▸ hframe) hput
        obtain ⟨⟨hstate, -⟩, hrestarted⟩ := hu
        cases result with
        | error e => cases heq
        | ok a =>
          cases heq
          obtain ⟨hpath, hbegin⟩ := hrestarted rfl
          refine ⟨hstate, hpath, fun query' hquery' => ?_⟩
          cases hquery'
          exact hbegin

end

/-! ## The files of the owners -/

/-- An owner is one of the file of its session. -/
structure State.Sourced (state : State) : Prop where
  live : ∀ (id : Nat) (file : File) (handle : Handle), state.files[id]? = some file →
    file.native = some handle → handle.owner.path = file.path
  idle : ∀ idle, state.idle = some idle → idle.handle.owner.path = idle.path

/-- A job leaves owners of the files of their sessions, and answers as asked. -/
def Sources {α : Type} (Q : α → Prop) (x : Job α) : Prop :=
  Decoder.Triple (fun w => w.state.Sourced) x (fun a w => w.state.Sourced ∧ Q a)
    fun _ w => w.state.Sourced

section
variable {α β : Type} {sdk : Sdk} {state : State} {id : Nat} {path : Path}

/-- A state without sessions has no handle to speak of. -/
theorem State.sourced_reset (state : State) : state.reset.Sourced := by
  refine ⟨fun id file handle hfile hnative => ?_, nofun⟩
  rw [files_reset, Option.map_eq_some_iff] at hfile
  obtain ⟨file, -, rfl⟩ := hfile
  cases hnative

theorem State.Sourced.dropIdle (h : state.Sourced) :
    ({ state with idle := none } : State).Sourced :=
  ⟨h.live, nofun⟩

/-- A session with a handle of its own path can be put. -/
theorem State.Sourced.put {file : File} (h : state.Sourced)
    (hnative : ∀ handle, file.native = some handle → handle.owner.path = file.path) (id : Nat) :
    (state.put id file).Sourced := by
  refine ⟨fun id' file' handle hfile hhandle => ?_, h.idle⟩
  rw [State.put, Std.HashMap.getElem?_insert] at hfile
  split at hfile
  · cases hfile
    exact hnative handle hhandle
  · exact h.live id' file' handle hfile hhandle

/-- Closing a session keeps the handles of the others. -/
theorem State.Sourced.erase (h : state.Sourced) (id : Nat) :
    ({ state with files := state.files.erase id } : State).Sourced := by
  refine ⟨fun id' file handle hfile hnative => ?_, h.idle⟩
  rw [Std.HashMap.getElem?_erase] at hfile
  split at hfile
  · cases hfile
  · exact h.live id' file handle hfile hnative

theorem Sources.pure {Q : α → Prop} {a : α} (h : Q a) : Sources Q (Pure.pure a : Job α) :=
  Decoder.Triple.pure fun _ hw => ⟨hw, h⟩

theorem Sources.raise {Q : α → Prop} {result : Except Error α} (h : ∀ a, result = .ok a → Q a) :
    Sources Q (raise result) :=
  raise_triple (fun a _ heq hw => ⟨hw, h a heq⟩) fun _ _ _ hw => hw

theorem Sources.bind {Q : α → Prop} {R : β → Prop} {x : Job α} {f : α → Job β} (hx : Sources Q x)
    (hf : ∀ a, Q a → Sources R (f a)) : Sources R (x >>= f) :=
  Decoder.Triple.bind hx fun a w hw => hf a hw.2 w hw.1

theorem Sources.look {Q : α → Prop} {f : World → α} (h : ∀ w : World, w.state.Sourced → Q (f w)) :
    Sources Q (Decoder.look f : Job α) :=
  Decoder.Triple.look fun w hw => ⟨hw, h w hw⟩

theorem Sources.modify {f : State → State} (h : ∀ s, s.Sourced → (f s).Sourced) :
    Sources (fun _ => True) (Job.modify f) :=
  modify_triple fun w hw => ⟨h w.state hw, True.intro⟩

/-- Putting such a session is a job that keeps them. -/
theorem Sources.put {file : File}
    (hnative : ∀ handle, file.native = some handle → handle.owner.path = file.path) :
    Sources (fun _ => True) (Job.modify (·.put id file)) :=
  .modify fun _ h => h.put hnative id

/-- What is done with a handle leaves its file. -/
theorem Sources.onHandle {handle : Handle} {x : OnHandle α}
    (h : ∀ k result live, x ⟨handle, k⟩ = (result, live) → handle.Kept live.handle) :
    Sources (fun r => r.2.owner.path = handle.owner.path) (onHandle handle x) := by
  intro w hw
  unfold Job.onHandle
  rcases hrun : x ⟨handle, w.calls⟩ with ⟨result, live⟩
  refine ⟨fun a w' heq => ?_, fun e w' heq => ?_⟩
  · cases heq
    exact ⟨hw, (h _ _ _ hrun).path⟩
  · cases heq

/-- A tracked part keeps the path and the contents of the handle, also when it fails. -/
theorem Tracked.kept {x : OnHandle α} (hx : Tracked x) {handle : Handle} {k : Nat}
    {result : Except Error α} {live : Live} (hrun : x ⟨handle, k⟩ = (result, live)) :
    handle.Kept live.handle := by
  cases result with
  | ok a => exact ((hx handle k _ ⟨.refl handle, le_rfl⟩).1 a live hrun).1.toKept
  | error e => exact ((hx handle k _ ⟨.refl handle, le_rfl⟩).2 e live hrun).1

theorem Sources.tracked {x : OnHandle α} (hx : Tracked x) (handle : Handle) :
    Sources (fun r => r.2.owner.path = handle.owner.path) (Job.onHandle handle x) :=
  .onHandle fun _ _ _ hrun => hx.kept hrun

/-- A handle that is opened has the path that was asked for. -/
theorem openHandle_sources (sdk : Sdk) (path name : Path) (metadataOnly : Bool) :
    Sources (fun handle => handle.owner.path = path) (openHandle sdk path name metadataOnly) := by
  intro w hw
  have htriple := openHandle_triple sdk path name metadataOnly w.state 0 w ⟨rfl, Nat.zero_le _⟩
  refine ⟨fun handle w' hrun => ?_, fun e w' hrun => ?_⟩
  · obtain ⟨hstate, -, hfresh⟩ := htriple.1 handle w' hrun
    exact ⟨hstate ▸ hw, hfresh.source⟩
  · show w'.state.Sourced
    rw [(htriple.2 e w' hrun).1]
    exact hw

/-- So has a handle that is taken from the parked ones. -/
theorem takeIdle_sources (sdk : Sdk) (path : Path) :
    Sources (fun taken => ∀ idle, taken = some idle → idle.handle.owner.path = path)
      (takeIdle sdk path) := by
  intro w hw
  have htriple := takeIdle_triple sdk path w w rfl
  refine ⟨fun taken w' hrun => ?_, fun e w' hrun => ?_⟩
  · obtain ⟨⟨hstate, -⟩, hhanded⟩ := htriple.1 taken w' hrun
    refine ⟨hstate ▸ hw.dropIdle, fun idle htaken => ?_⟩
    rw [hw.idle idle (hhanded idle htaken).parked, (hhanded idle htaken).source]
  · show w'.state.Sourced
    rw [(htriple.2 e w' hrun).1]
    exact hw.dropIdle

/-- Choosing a resolution changes no handle. -/
theorem State.Sourced.selectResolution (h : state.Sourced) (resolution : Nat) :
    (state.selectResolution resolution).Sourced := by
  unfold State.selectResolution
  split
  · exact h
  · exact ⟨state.sourced_reset.live, nofun⟩

/-- Finding the session of a job keeps the files of the owners. -/
theorem file_sourced : Sources (fun _ => True) (file sdk id) := by
  refine (Sources.look (Q := fun _ => True) fun _ _ => True.intro).bind fun found _ => ?_
  cases found with
  | none => exact Sources.raise fun _ _ => True.intro
  | some file =>
    refine Sources.bind (Sources.modify fun s h => h.selectResolution file.resolution) fun _ _ => ?_
    refine Sources.bind (Sources.look (Q := fun _ => True) fun _ _ => True.intro) fun found _ => ?_
    cases found.bind File.native with
    | some handle => exact .pure True.intro
    | none =>
      refine (openHandle_sources sdk _ _ _).bind fun handle hpath => ?_
      have hput : ∀ handle : Handle, handle.owner.path = file.path → Sources (fun _ => True) (do
          Job.modify (·.put id { file with native := some handle })
          Pure.pure ({ file with native := some handle }, handle)) := fun handle hpath =>
        (Sources.put fun _ heq => by cases heq; exact hpath).bind fun _ _ => .pure True.intro
      cases hquery : file.query with
      | none =>
        simp only [hquery] at hput
        exact (Sources.pure (Q := fun handle : Handle => handle.owner.path =
          file.path) hpath).bind hput
      | some query =>
        simp only [hquery] at hput
        refine (Sources.tracked (tracked_beginNative sdk _ _ _ false) handle).bind fun r hr =>
          (Sources.raise (Q := fun handle => handle.owner.path = file.path) ?_).bind hput
        intro handle' heq
        obtain ⟨result, handle''⟩ := r
        cases result with
        | error e => cases heq
        | ok a =>
          cases heq
          exact hr.trans hpath

/-- A job finds its session with an owner of its file. -/
theorem file_sources : Sources (fun r => r.2.owner.path = r.1.path) (file sdk id) := by
  intro w hw
  obtain ⟨hok, herror⟩ := file_sourced w hw
  refine ⟨fun r w' hrun => ⟨(hok r w' hrun).1, ?_⟩, herror⟩
  cases hfile : w.state.files[id]? with
  | none =>
    have hlook : (Decoder.look fun w : World => w.state.files[id]? : Job (Option File)) w =
        (.ok none, w) := by rw [Decoder.look_apply, hfile]
    rw [file, Decoder.bind_of_ok hlook] at hrun
    cases hrun
  | some f =>
    obtain ⟨hsame, hregistered, -⟩ := (file_found hfile w rfl).1 r w' hrun
    exact (hok r w' hrun).1.live id r.1 r.2 hregistered (by rw [hsame])

/-- An open registers a session with an owner of its file. -/
theorem open_sources (sourceName : String) :
    Sources (fun _ => True) («open» sdk path sourceName) := by
  refine Sources.bind (Sources.look (Q := fun _ => True) fun _ _ => True.intro) fun state _ => ?_
  dsimp only
  split
  · exact .raise fun _ _ => True.intro
  · refine Sources.bind (Sources.modify fun s h => ⟨h.live, h.idle⟩) fun _ _ => ?_
    refine (takeIdle_sources sdk path).bind fun reused hreused => ?_
    refine Sources.bind (Sources.modify fun s _ => s.sourced_reset) fun _ _ => ?_
    have hlast : ∀ handle : Handle, handle.owner.path = path → Sources (fun _ => True) (do
        Job.modify fun state => { state with resolution := some handle.owner.header.resolution }
        let metadata ← Job.raise (metadata handle.owner.header sourceName)
        let declared ← Job.raise (declarations 0 handle.owner.declarations)
        Job.modify (·.put (state.nextId + 1) ⟨path, sessionName (state.nextId + 1),
          handle.owner.header.resolution, handle.owner.header.last,
          declared.map Declaration.encoding, some handle, none⟩)
        Pure.pure (⟨state.nextId + 1, metadata, declared⟩ : Opened)) := by
      intro handle hpath
      have hput : ∀ (name : Path) (resolution last : Nat) (encodings : List Encoding),
          Sources (fun _ => True) (Job.modify (·.put (state.nextId + 1)
            ⟨path, name, resolution, last, encodings, some handle, none⟩)) :=
        fun _ _ _ _ => .put fun _ heq => by cases heq; exact hpath
      refine Sources.bind (Sources.modify fun s h => ⟨h.live, h.idle⟩) fun _ _ => ?_
      refine Sources.bind (Sources.raise (Q := fun _ => True) fun _ _ => True.intro) fun _ _ => ?_
      refine Sources.bind (Sources.raise (Q := fun _ => True) fun _ _ => True.intro) fun _ _ => ?_
      exact (hput _ _ _ _).bind fun _ _ => .pure True.intro
    cases reused with
    | some idle =>
      exact (Sources.pure (Q := fun handle : Handle => handle.owner.path = path)
        (hreused idle rfl)).bind hlast
    | none => exact (openHandle_sources sdk path _ _).bind hlast

/-- The owner that a close parks is one of the file of its session. -/
theorem close_sources (allowIdle : Bool) : Sources (fun _ => True) (close sdk id allowIdle) := by
  refine Sources.bind (Sources.look (Q := fun found => ∀ file handle, found = some file →
    file.native = some handle → handle.owner.path = file.path)
    fun w hw file handle hfile => hw.live id file handle hfile) fun found hfound => ?_
  cases found with
  | none => exact .pure True.intro
  | some file =>
    refine Sources.bind (Sources.modify fun s h => h.erase id) fun _ _ => ?_
    refine Sources.bind (Sources.look (Q := fun _ => True) fun _ _ => True.intro) fun state _ => ?_
    cases hnative : file.native with
    | none => exact .pure True.intro
    | some handle =>
      have hpath := hfound file handle rfl hnative
      dsimp only
      split
      · refine Sources.bind (Q := fun _ => True) (fun w hw => ⟨?_, ?_⟩) fun parked _ => ?_
        · rintro a w' heq
          cases heq
          exact ⟨hw, True.intro⟩
        · rintro e w' heq
          cases heq
        · split
          · exact .modify fun s h => ⟨h.live, fun idle heq => by cases heq; exact hpath⟩
          · exact .pure True.intro
      · exact .pure True.intro

/-- **Every job leaves owners of the files of their sessions.** -/
theorem job_sources (command : Command) : Sources (fun _ => True) (command.job sdk) := by
  have hanswer : ∀ {α : Type} {x : Job α} {Q : α → Prop} (f : α → Answer), Sources Q x →
      Sources (fun _ => True) (x >>= fun a => (Pure.pure (f a) : Job Answer)) :=
    fun f hx => hx.bind fun _ _ => .pure True.intro
  -- A session is put back with an owner of its file.
  have hput : ∀ (id : Nat) (file : File) (handle : Handle) (query : Option Query),
      handle.owner.path = file.path → Sources (fun _ => True)
        (Job.modify (·.put id { file with native := some handle, query := query })) :=
    fun id file handle query hpath => .put fun _ heq => by cases heq; exact hpath
  cases command with
  | «open» path sourceName => exact hanswer _ (open_sources sourceName)
  | readMetadata path sourceName =>
    exact hanswer _ ((Sources.modify fun s _ => s.sourced_reset).bind fun _ _ =>
      (openHandle_sources sdk _ _ _).bind fun _ _ =>
        Sources.raise (Q := fun _ => True) fun _ _ => True.intro)
  | begin id indices start stop =>
    refine hanswer (Q := fun _ => True) (fun _ => .done) (file_sources.bind fun r hr => ?_)
    dsimp only
    cases indices.mapM fun index => r.1.encodings[index]? with
    | none => exact .raise fun _ _ => True.intro
    | some encodings =>
      refine (Sources.tracked (tracked_beginNative sdk _ _ _ false) r.2).bind fun r' hr' => ?_
      obtain ⟨result, handle⟩ := r'
      have hpath := hr'.trans hr
      cases result with
      | error e =>
        exact (hput id r.1 handle none hpath).bind fun _ _ => .raise fun _ _ => True.intro
      | ok a => exact hput id r.1 handle _ hpath
  | next id =>
    refine hanswer (Q := fun _ => True) _ (file_sources.bind fun r hr => ?_)
    dsimp only
    cases r.1.query with
    | none => exact .raise fun _ _ => True.intro
    | some query =>
      dsimp only
      split
      · exact .pure True.intro
      · refine (Sources.onHandle fun k result live hrun =>
          (nextLoop_clean sdk _ query [] ⟨.refl r.2, le_rfl⟩ hrun).1.1).bind fun r' hr' => ?_
        exact (hput id r.1 r'.2 _ (hr'.trans hr)).bind fun _ _ => .raise fun _ _ => True.intro
  | sampleBits id indices projections time =>
    refine hanswer (Q := fun _ => True) _ (file_sources.bind fun r hr => ?_)
    refine (Sources.tracked (tracked_sampleStates sdk _ _ _ _) r.2).bind fun r' hr' => ?_
    refine (hput id r.1 _ none ?_).bind fun _ _ => .raise fun _ _ => True.intro
    split <;> exact hr'.trans hr
  | «end» id =>
    refine hanswer (Q := fun _ => True) (fun _ => .done) ?_
    refine Sources.bind (Sources.look (Q := fun found => ∀ file handle, found = some file →
      file.native = some handle → handle.owner.path = file.path)
      fun w hw file handle hfile => hw.live id file handle hfile) fun found hfound => ?_
    cases found with
    | none => exact .pure True.intro
    | some file =>
      refine .put fun handle heq => ?_
      obtain ⟨handle', hnative, rfl⟩ := Option.map_eq_some_iff.1 heq
      exact hfound file handle' rfl hnative
  | close id allowIdle => exact hanswer (fun _ => .done) (close_sources allowIdle)

end

/-! ## Transfers -/

/-- The key of a record. -/
def NativeRecord.key (out : NativeRecord) : Nat × Nat := (out.tick, out.selection)

/-- A record comes before another one, by its tick and then by its selection. -/
def NativeRecord.Before (a b : NativeRecord) : Prop :=
  a.tick < b.tick ∨ (a.tick = b.tick ∧ a.selection < b.selection)

/-- The library replays the same records from every start of a query, in the order of their keys,
and the code 2 of `ondas_wlf_batch_end` says that none is left. -/
structure Replays (sdk : Sdk) (path : Path) (indices : List Nat) (start stop : Nat)
    (recs : List NativeRecord) : Prop where
  begin : ∀ k found, sdk.begin k path indices start stop false = .ok found → found = recs
  ordered : recs.Pairwise NativeRecord.Before
  ended : ∀ k left, sdk.batchEnd k left = 2 → left = []

/-- A traversal that is still to pass the last of the records that are done. -/
def Behind (traversal done rest : List NativeRecord) : Prop :=
  ∃ skipped, skipped <:+ done ∧ traversal = skipped ++ rest

/-- The records as they are transferred. -/
def Decodes (encodings : List Encoding) : List NativeRecord → List Record → Prop :=
  List.Forall₂ fun out record => ownedRecord out encodings = .ok record

/-- A query after some records. -/
def Query.after (query : Query) (done : List NativeRecord) (finished : Bool) : Query :=
  { query with last := done.getLast?.map NativeRecord.key, finished := finished }

/-- A session whose query has transferred some records, with the rest to come. -/
structure Suspended (id : Nat) (path : Path) (query : Query) (done rest : List NativeRecord)
    (state : State) : Prop where
  session : ∃ file finished, state.files[id]? = some file ∧ file.path = path ∧
    file.query = some (query.after done finished) ∧ (finished = true → rest = []) ∧
      ∀ handle, file.native = some handle → Behind handle.owner.traversal done rest

section
variable {sdk : Sdk} {id : Nat} {path : Path} {query : Query}
    {done rest skipped : List NativeRecord}
  {out : NativeRecord} {s s' : State}

/-- A job that leaves a session leaves what its query has transferred. -/
theorem Suspended.frame (h : Suspended id path query done rest s) (hframe : Frame id s s') :
    Suspended id path query done rest s' := by
  obtain ⟨file, finished, hfile, hpath, hquery, hfinished, hbehind⟩ := h.session
  obtain ⟨native, hnative, hfile'⟩ := hframe file hfile
  refine ⟨_, finished, hfile', hpath, hquery, hfinished, fun handle hhandle => ?_⟩
  rcases hnative with rfl | rfl
  · exact hbehind handle hhandle
  · cases hhandle

/-- What the test for transferred records says of a record. -/
theorem transferred_last (last : NativeRecord) (out : NativeRecord) :
    transferred (some last.key) out =
      decide (out.tick < last.tick ∨ (out.tick = last.tick ∧ out.selection ≤ last.selection)) := by
  simp [transferred, NativeRecord.key, beq_eq_decide]

/-- A record that is done is skipped. -/
theorem transferred_done (hordered : (done ++ rest).Pairwise NativeRecord.Before)
    (hmem : out ∈ done) : transferred (done.getLast?.map NativeRecord.key) out = true := by
  obtain ⟨before, last, rfl⟩ := (List.eq_nil_or_concat' done).resolve_left (List.ne_nil_of_mem hmem)
  have hbefore := (List.pairwise_append.1 (List.pairwise_append.1 hordered).1).2.2
  rw [List.getLast?_concat, Option.map_some, transferred_last, decide_eq_true_iff]
  rcases List.mem_append.1 hmem with hmem | hmem
  · rcases hbefore out hmem last (.head _) with htick | ⟨htick, hselection⟩
    · exact .inl htick
    · exact .inr ⟨htick, hselection.le⟩
  · rw [List.mem_singleton.1 hmem]
    exact .inr ⟨rfl, le_rfl⟩

/-- A record that is still to come is not skipped. -/
theorem transferred_rest (hordered : (done ++ out :: rest).Pairwise NativeRecord.Before) :
    transferred (done.getLast?.map NativeRecord.key) out = false := by
  rcases List.eq_nil_or_concat' done with rfl | ⟨before, last, rfl⟩
  · rfl
  · have hlast := (List.pairwise_append.1 hordered).2.2 last (by simp) out (.head _)
    rw [List.getLast?_concat, Option.map_some, transferred_last, decide_eq_false_iff_not]
    rcases hlast with htick | ⟨htick, hselection⟩ <;> omega

/-- What a batch with an error tells of: a call of the library failed, or a record was refused. -/
def Faulty (sdk : Sdk) (query : Query) (rest : List NativeRecord) : Prop :=
  (∃ k, sdk.next k ≠ none) ∨ ∃ out ∈ rest, ∀ record, ownedRecord out query.encodings ≠ .ok record

/-- What the loop of `next` has done: it has transferred some records of those to come, and tells of
the end when none is left. Without an error the traversal goes on behind them, and some progress was
made. -/
structure Transferred (sdk : Sdk) (query : Query) (done rest : List NativeRecord)
    (records : List Record) (batch : Batch) (query' : Query)
    (traversal sent left : List NativeRecord) (new : List Record) : Prop where
  split : rest = sent ++ left
  decodes : Decodes query.encodings sent new
  records : batch.records = records ++ new
  after : query' = query.after (done ++ sent) batch.finished
  finished : batch.finished = true → left = []
  behind : batch.error = none → Behind traversal (done ++ sent) left
  progress : batch.error = none → batch.finished = true ∨ new ≠ []
  fault : batch.error ≠ none → Faulty sdk query rest

/-- **The loop of `next` transfers what is to come.** The induction is on the fuel, which is more
than the records that the traversal has left; it skips the ones that are done first. -/
theorem nextLoop_transfers (hended : ∀ k left, sdk.batchEnd k left = 2 → left = []) (fuel : Nat) :
    ∀ (done rest skipped : List NativeRecord) (records : List Record) (live live' : Live)
      (result : Except Error (Batch × Query)),
      (done ++ rest).Pairwise NativeRecord.Before → skipped <:+ done →
      live.handle.owner.traversal = skipped ++ rest → (skipped ++ rest).length < fuel →
      nextLoop sdk fuel (query.after done false) records live = (result, live') →
        ∃ batch query' sent left new, result = .ok (batch, query') ∧
          Transferred sdk query done rest records batch query'
            live'.handle.owner.traversal sent left
            new := by
  induction fuel with
  | zero => exact fun _ _ _ _ _ _ _ _ _ _ hfuel => absurd hfuel (Nat.not_lt_zero _)
  | succ fuel ih =>
    intro done rest skipped records live live' result hordered hskipped htraversal hfuel hrun
    have hnone : query.after done false = query.after (done ++ []) false := by
      rw [List.append_nil]
    unfold nextLoop nextNative at hrun
    cases hfail : sdk.next live.calls with
    | some failure =>
      rw [hfail] at hrun
      cases hrun
      exact ⟨_, _, [], rest, [], rfl, rfl, .nil, (List.append_nil _).symm, hnone,
        (fun h => by cases h),
        (fun h => by cases h), (fun h => by cases h),
        fun _ => .inl ⟨live.calls, hfail ▸ Option.some_ne_none failure⟩⟩
    | none =>
      rw [hfail] at hrun
      cases skipped with
      | cons out skipped =>
        -- A record that is done: it is skipped.
        rw [List.cons_append] at htraversal hfuel
        have hmem : out ∈ done := hskipped.subset (.head _)
        have hskip : transferred (query.after done false).last out = true :=
          transferred_done hordered hmem
        rw [htraversal] at hrun
        dsimp only at hrun
        rw [if_pos hskip] at hrun
        exact ih done rest skipped records _ live' result hordered
          ((List.suffix_cons out skipped).trans hskipped) rfl (Nat.lt_of_succ_lt_succ hfuel) hrun
      | nil =>
        rw [List.nil_append] at htraversal hfuel
        rw [htraversal] at hrun
        cases rest with
        | nil =>
          cases hrun
          refine ⟨_, _, [], [], [], rfl, rfl, .nil, (List.append_nil _).symm, ?_, fun _ => rfl,
            fun _ => ⟨[], List.nil_suffix, htraversal⟩, fun _ => .inl rfl, fun h => absurd rfl h⟩
          rw [List.append_nil]
          rfl
        | cons out rest =>
          have hnew : transferred (query.after done false).last out = false :=
            transferred_rest hordered
          dsimp only at hrun
          rw [hnew, if_neg Bool.false_ne_true, decode] at hrun
          cases hdecode : ownedRecord out query.encodings with
          | error e =>
            rw [show (query.after done false).encodings = query.encodings from rfl, hdecode] at hrun
            cases hrun
            refine ⟨_, _, [], out :: rest, [], rfl, rfl, .nil, (List.append_nil _).symm, hnone,
              (fun h => by cases h), (fun h => by cases h), (fun h => by cases h),
              fun _ => .inr ⟨out, .head _, fun record hrecord => ?_⟩⟩
            rw [hdecode] at hrecord
            cases hrecord
          | ok record =>
            rw [show (query.after done false).encodings = query.encodings from rfl, hdecode] at hrun
            have hafter : ∀ finished, (⟨query.indices, query.encodings, query.start, query.stop,
                some (out.tick, out.selection), finished⟩ : Query) =
                  query.after (done ++ [out]) finished := by
              intro finished
              rw [Query.after, List.getLast?_concat]
              rfl
            dsimp only [batchEndNative, Query.after] at hrun
            split at hrun
            next hend =>
              cases hrun
              refine ⟨_, _, [out], rest, [record], rfl, rfl, .cons hdecode .nil, rfl, hafter _,
                fun hfinished => ?_, fun _ => ⟨[], List.nil_suffix, rfl⟩,
                fun _ => .inr (List.cons_ne_nil _ _), fun h => absurd rfl h⟩
              exact hended _ rest (beq_iff_eq.1 hfinished)
            next hend =>
              rw [hafter] at hrun
              have hordered' : (done ++ [out] ++ rest).Pairwise NativeRecord.Before := by
                rw [List.append_assoc]
                exact hordered
              obtain ⟨batch, query', sent, left, new, hresult, h⟩ := ih (done ++ [out]) rest [] _ _
                live' result hordered' List.nil_suffix rfl (Nat.lt_of_succ_lt_succ hfuel) hrun
              have hdone : done ++ [out] ++ sent = done ++ out :: sent :=
                List.append_cons done out sent ▸ rfl
              refine ⟨batch, query', out :: sent, left, record :: new, hresult, ?_,
                .cons hdecode h.decodes, ?_, hdone ▸ h.after, h.finished,
                fun hclean => hdone ▸ h.behind hclean, fun _ => .inr (List.cons_ne_nil _ _),
                fun herror => ?_⟩
              · rw [h.split, List.cons_append]
              · rw [h.records, List.append_assoc]
                rfl
              · rcases h.fault herror with hfail | ⟨out', hmem, hrefused⟩
                · exact .inl hfail
                · exact .inr ⟨out', .tail _ hmem, hrefused⟩

/-! ## Jobs of the session -/

/-- **One job of a suspended query.** It fails with its session, which could not be opened again,
and leaves the query as it is; or its batch has the records to come, with an error only when a call
failed or a record was refused. -/
theorem next_transfers {recs : List NativeRecord} {w w' : World} {result : Except Error Batch}
    (hreplay : Replays sdk path query.indices query.start query.stop recs)
    (hsplit : recs = done ++ rest) (h : Suspended id path query done rest w.state)
    (hrun : next sdk id w = (result, w')) :
    match result with
    | .error e => Suspended id path query done rest w'.state ∧ (file sdk id w).1 = .error e
    | .ok batch => ∃ sent left, rest = sent ++ left ∧ Decodes query.encodings sent batch.records ∧
        (batch.finished = true → left = []) ∧
        (batch.error = none → (batch.finished = true ∨ batch.records ≠ []) ∧
          Suspended id path query (done ++ sent) left w'.state) ∧
        (batch.error ≠ none → Faulty sdk query rest) := by
  obtain ⟨f, finished, hfile, hpath, hquery, hfinished, hbehind⟩ := h.session
  have htriple : Decoder.Triple (fun w' => w' = w) (file sdk id) (Found sdk id f)
      fun _ w' => Frame id w.state w'.state := file_found hfile
  rcases hfound : file sdk id w with ⟨e | ⟨file, handle⟩, w₁⟩
  · rw [next, Decoder.bind_of_error hfound] at hrun
    cases hrun
    exact ⟨h.frame ((htriple w rfl).2 e _ hfound), rfl⟩
  · obtain ⟨hsame, hregistered, hrestarted, -⟩ := (htriple w rfl).1 _ w₁ hfound
    dsimp only at hsame hregistered hrestarted
    subst hsame
    have hpassing : Behind handle.owner.traversal done rest := by
      rcases hrestarted with hnative | hrestarted
      · exact hbehind handle hnative
      · obtain ⟨k, hbegin⟩ := hrestarted _ hquery
        rw [hpath] at hbegin
        exact ⟨done, List.suffix_rfl, (hreplay.begin k _ hbegin).trans hsplit⟩
    rw [next, Decoder.bind_of_ok hfound] at hrun
    dsimp only at hrun
    rw [hquery] at hrun
    dsimp only [Query.after] at hrun
    cases finished with
    | true =>
      cases hrun
      have hnone := hfinished rfl
      refine ⟨[], rest, rfl, .nil, fun _ => hnone, fun _ => ⟨.inl rfl, ?_⟩, fun h => absurd rfl h⟩
      rw [List.append_nil]
      exact ⟨_, true, hregistered, hpath, hquery, hfinished, fun handle' hnative => by
        cases hnative; exact hpassing⟩
    | false =>
      obtain ⟨skipped, hskipped, htraversal⟩ := hpassing
      rw [if_neg Bool.false_ne_true] at hrun
      rcases hloop : nextLoop sdk (handle.owner.traversal.length + 1) (query.after done false) []
        ⟨handle, w₁.calls⟩ with ⟨answer, live⟩
      have hordered : (done ++ rest).Pairwise NativeRecord.Before := hsplit ▸ hreplay.ordered
      have hfuel : (skipped ++ rest).length < handle.owner.traversal.length + 1 := by
        rw [htraversal]
        exact Nat.lt_succ_self _
      obtain ⟨batch, query', sent, left, new, rfl, hsent⟩ := nextLoop_transfers hreplay.ended _ done
        rest skipped [] ⟨handle, w₁.calls⟩ live answer hordered hskipped htraversal hfuel hloop
      have hhandle : onHandle handle (nextLoop sdk (handle.owner.traversal.length + 1)
          (query.after done false) []) w₁ =
            (.ok (.ok (batch, query'), live.handle), { w₁ with calls := live.calls }) := by
        unfold onHandle
        rw [hloop]
      have hrun := (Decoder.bind_of_ok hhandle).symm.trans hrun
      cases hrun
      have hrecords : batch.records = new := hsent.records
      refine ⟨sent, left, hsent.split, hrecords ▸ hsent.decodes, hsent.finished,
        fun hclean => ⟨?_, ?_⟩, hsent.fault⟩
      · exact hrecords ▸ hsent.progress hclean
      · refine ⟨_, batch.finished, Std.HashMap.getElem?_insert_self, hpath, ?_, hsent.finished,
          fun handle' hnative => ?_⟩
        · exact congrArg some hsent.after
        · cases hnative
          exact hsent.behind hclean

/-- A query that is started has all of its records to come. -/
theorem begin_suspends {indices : List Nat} {start stop : Nat} {recs : List NativeRecord}
    {f : File} {w w' : World} (hsourced : w.state.Sourced) (hfile : w.state.files[id]? = some f)
    (hreplay : Replays sdk f.path indices start stop recs)
    (hrun : begin sdk id indices start stop w = (.ok (), w')) :
    ∃ encodings, (indices.mapM fun index => f.encodings[index]?) = some encodings ∧
      Suspended id f.path ⟨indices, encodings, start, stop, none, false⟩ [] recs w'.state := by
  obtain ⟨⟨file, handle⟩, w₁, hfound, hrest⟩ := Decoder.bind_eq_ok.1 hrun
  have hpath := ((file_sources w hsourced).1 _ w₁ hfound).2
  have htriple : Decoder.Triple (fun w' => w' = w) (Wlf.file sdk id) (Found sdk id f)
      fun _ w' => Frame id w.state w'.state := file_found hfile
  obtain ⟨hsame, -, -⟩ := (htriple w rfl).1 _ w₁ hfound
  dsimp only at hsame hpath
  subst hsame
  dsimp only at hrest
  cases hencodings : indices.mapM fun index => f.encodings[index]? with
  | none =>
    rw [hencodings] at hrest
    cases hrest
  | some encodings =>
    rw [hencodings] at hrest
    refine ⟨encodings, rfl, ?_⟩
    obtain ⟨⟨result, handle'⟩, w₂, hhandle, hput⟩ := Decoder.bind_eq_ok.1 hrest
    unfold onHandle beginNative at hhandle
    cases hbegin : sdk.begin w₁.calls handle.owner.path indices start stop false with
    | error failure =>
      simp only [hbegin] at hhandle
      cases hhandle
      cases hput
    | ok records =>
      simp only [hbegin] at hhandle
      cases hhandle
      cases hput
      rw [hpath] at hbegin
      refine ⟨_, false, Std.HashMap.getElem?_insert_self, rfl, rfl, nofun,
        fun handle' hnative => ?_⟩
      cases hnative
      exact ⟨[], List.nil_suffix, hreplay.begin _ _ hbegin⟩

end

end Ondas.Wlf
