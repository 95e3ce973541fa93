import Ondas.Wlf.Worker

/-!
# Jobs that succeed

What a job answers and leaves when nothing it asks for fails, as one equation a job: opening a
session (`open_new`, `open_reused`), using one whose owner is live (`file_live`) or was dropped
(`file_again`), starting a query, reading on in it, and giving the owner back (`close_parked`). A
run of jobs is evaluated with them, although the sessions are in a hash map.
-/

namespace Ondas.Wlf

open Library Job

section
variable {sdk : Sdk} {id : Nat} {w v : World} {f : File} {handle : Handle} {query : Query}

/-- Looking a session up leaves the state. -/
theorem look_file (id : Nat) (w : World) :
    (Decoder.look fun w : World => w.state.files[id]? : Job (Option File)) w =
      (.ok w.state.files[id]?, w) := rfl

/-- Something done with a handle that succeeds. -/
theorem onHandle_eq {α : Type} {x : OnHandle α} {result : Except Error α} {live : Live}
    (h : x ⟨handle, w.calls⟩ = (result, live)) :
    onHandle handle x w = (.ok (result, live.handle), { w with calls := live.calls }) := by
  unfold onHandle
  rw [h]

/-- Starting a traversal takes one call. -/
theorem beginNative_eq {indices : List Nat} {start stop : Nat} {found : List NativeRecord}
    (h : sdk.begin w.calls handle.owner.path indices start stop false = .ok found) :
    onHandle handle (beginNative sdk indices start stop false) w =
      (.ok (.ok (), handle.traverse found), { w with calls := w.calls + 1 }) := by
  have hrun : beginNative sdk indices start stop false ⟨handle, w.calls⟩ =
      (.ok (), ⟨handle.traverse found, w.calls + 1⟩) := by
    unfold beginNative
    rw [h]
  exact onHandle_eq hrun

/-- A session with an owner, when its resolution is selected. -/
theorem file_live (hfile : w.state.files[id]? = some f) (hnative : f.native = some handle)
    (hselected : w.state.resolution = some f.resolution) :
    file sdk id w = (.ok (f, handle), w) := by
  have hselect : modify (·.selectResolution f.resolution) w = (.ok (), w) :=
    congrArg (fun state => (Except.ok (), World.mk state w.calls)) (if_pos hselected)
  have hlook := look_file id w
  rw [hfile] at hlook
  refine Decoder.bind_eq_ok.2 ⟨_, _, hlook, Decoder.bind_eq_ok.2 ⟨_, _, hselect, ?_⟩⟩
  refine Decoder.bind_eq_ok.2 ⟨_, _, hlook, ?_⟩
  obtain ⟨path, name, resolution, last, encodings, native, query⟩ := f
  cases hnative
  rfl

/-- A session without an owner opens one, and restarts its query. -/
theorem file_again {found : List NativeRecord} (hfile : w.state.files[id]? = some f)
    (hquery : f.query = some query)
    (hgone : (w.state.selectResolution f.resolution).files[id]? = some { f with native := none })
    (hopen : openHandle sdk f.path f.name false
      { w with state := w.state.selectResolution f.resolution } = (.ok handle, v))
    (hbegin : sdk.begin v.calls handle.owner.path query.indices query.start query.stop false =
      .ok found) :
    file sdk id w = (.ok ({ f with native := some (handle.traverse found) }, handle.traverse found),
      ⟨v.state.put id { f with native := some (handle.traverse found) }, v.calls + 1⟩) := by
  have hselect : modify (·.selectResolution f.resolution) w =
      (.ok (), { w with state := w.state.selectResolution f.resolution }) := rfl
  rw [file, Decoder.bind_of_ok (look_file id w), hfile]
  dsimp only
  rw [Decoder.bind_of_ok hselect, Decoder.bind_of_ok (look_file id _), hgone, Option.bind_some]
  dsimp only
  rw [Decoder.bind_of_ok hopen, hquery]
  dsimp only
  rw [Decoder.bind_of_ok (beginNative_eq hbegin), ← hquery]
  rfl

/-- The state in which an open has a handle of its session. -/
def State.registered (state : State) (id : Nat) (path : Path) (handle : Handle)
    (declared : List Declaration) : State :=
  State.put { state with resolution := some handle.owner.header.resolution } id
    ⟨path, sessionName id, handle.owner.header.resolution, handle.owner.header.last,
      declared.map Declaration.encoding, some handle, none⟩

/-- Opening a session with a new owner. -/
theorem open_new {path : Path} {sourceName : String} {u : World} {header : Metadata}
    {declared : List Declaration} (hid : w.state.nextId + 1 ≤ u64Max)
    (htake : takeIdle sdk path { w with state := { w.state with nextId := w.state.nextId + 1 } } =
      (.ok none, v))
    (hopen : openHandle sdk path (sessionName (w.state.nextId + 1)) false
      { v with state := v.state.reset } = (.ok handle, u))
    (hheader : metadata handle.owner.header sourceName = .ok header)
    (hdeclared : declarations 0 handle.owner.declarations = .ok declared) :
    «open» sdk path sourceName w = (.ok ⟨w.state.nextId + 1, header, declared⟩,
      { u with state := u.state.registered (w.state.nextId + 1) path handle declared }) := by
  refine Decoder.bind_eq_ok.2 ⟨_, _, rfl, ?_⟩
  rw [if_neg (by omega)]
  refine Decoder.bind_eq_ok.2 ⟨_, _, rfl, Decoder.bind_eq_ok.2 ⟨none, v, htake, ?_⟩⟩
  refine Decoder.bind_eq_ok.2 ⟨_, _, rfl, Decoder.bind_eq_ok.2 ⟨_, _, hopen, ?_⟩⟩
  refine Decoder.bind_eq_ok.2 ⟨_, _, rfl,
    Decoder.bind_eq_ok.2 ⟨header, _, congrArg (·, _) hheader, ?_⟩⟩
  exact Decoder.bind_eq_ok.2 ⟨declared, _, congrArg (·, _) hdeclared, rfl⟩

/-- Opening a session with the owner that was idle. -/
theorem open_reused {path : Path} {sourceName : String} {idle : Idle} {header : Metadata}
    {declared : List Declaration} (hid : w.state.nextId + 1 ≤ u64Max)
    (htake : takeIdle sdk path { w with state := { w.state with nextId := w.state.nextId + 1 } } =
      (.ok (some idle), v))
    (hheader : metadata idle.handle.owner.header sourceName = .ok header)
    (hdeclared : declarations 0 idle.handle.owner.declarations = .ok declared) :
    «open» sdk path sourceName w = (.ok ⟨w.state.nextId + 1, header, declared⟩,
      { v with
        state := v.state.reset.registered (w.state.nextId + 1) path idle.handle declared }) := by
  refine Decoder.bind_eq_ok.2 ⟨_, _, rfl, ?_⟩
  rw [if_neg (by omega)]
  refine Decoder.bind_eq_ok.2 ⟨_, _, rfl, Decoder.bind_eq_ok.2 ⟨some idle, v, htake, ?_⟩⟩
  refine Decoder.bind_eq_ok.2 ⟨_, _, rfl, Decoder.bind_eq_ok.2 ⟨idle.handle, _, rfl, ?_⟩⟩
  refine Decoder.bind_eq_ok.2 ⟨_, _, rfl,
    Decoder.bind_eq_ok.2 ⟨header, _, congrArg (·, _) hheader, ?_⟩⟩
  exact Decoder.bind_eq_ok.2 ⟨declared, _, congrArg (·, _) hdeclared, rfl⟩

/-- Starting a query of a session. -/
theorem begin_eq {indices : List Nat} {start stop : Nat} {encodings : List Encoding}
    {found : List NativeRecord} (hfile : file sdk id w = (.ok (f, handle), v))
    (hencodings : (indices.mapM fun index => f.encodings[index]?) = some encodings)
    (hbegin : sdk.begin v.calls handle.owner.path indices start stop false = .ok found) :
    begin sdk id indices start stop w = (.ok (), ⟨v.state.put id { f with
      native := some (handle.traverse found)
      query := some ⟨indices, encodings, start, stop, none, false⟩ }, v.calls + 1⟩) := by
  refine Decoder.bind_eq_ok.2 ⟨_, _, hfile, ?_⟩
  dsimp only
  rw [hencodings]
  exact Decoder.bind_eq_ok.2 ⟨_, _, beginNative_eq hbegin, rfl⟩

/-- Reading on in a query that has not ended. -/
theorem next_eq {batch : Batch} {query' : Query} {live : Live}
    (hfile : file sdk id w = (.ok (f, handle), v)) (hquery : f.query = some query)
    (hfinished : query.finished = false)
    (hloop : nextLoop sdk (handle.owner.traversal.length + 1) query [] ⟨handle, v.calls⟩ =
      (.ok (batch, query'), live)) :
    next sdk id w = (.ok batch, ⟨v.state.put id { f with
      native := some live.handle, query := some query' }, live.calls⟩) := by
  refine Decoder.bind_eq_ok.2 ⟨_, _, hfile, ?_⟩
  dsimp only
  rw [hquery]
  dsimp only
  rw [if_neg (by rw [hfinished]; exact Bool.false_ne_true)]
  exact Decoder.bind_eq_ok.2 ⟨_, _, onHandle_eq hloop, rfl⟩

/-- A query that has ended tells so again. -/
theorem next_finished (hfile : file sdk id w = (.ok (f, handle), v)) (hquery : f.query = some query)
    (hfinished : query.finished = true) : next sdk id w = (.ok ⟨[], true, none⟩, v) := by
  refine Decoder.bind_eq_ok.2 ⟨_, _, hfile, ?_⟩
  dsimp only
  rw [hquery]
  dsimp only
  rw [if_pos hfinished]
  rfl

/-- Ending the query of a session. -/
theorem end_eq (hfile : w.state.files[id]? = some f) :
    «end» id w = (.ok (), ⟨w.state.put id { f with
      native := f.native.map (·.traverse []), query := none }, w.calls⟩) := by
  have hlook := look_file id w
  rw [hfile] at hlook
  exact Decoder.bind_eq_ok.2 ⟨_, _, hlook, rfl⟩

/-- The last session leaves its owner to the next one on the same file. -/
theorem close_parked (hfile : w.state.files[id]? = some f) (hnative : f.native = some handle)
    (hlast : (w.state.files.erase id).isEmpty = true) (hidentity : handle.identity.isSome = true)
    (hreusable : handle.reusable = true) (hselected : w.state.resolution = some f.resolution)
    (hpark : sdk.park w.calls = true) :
    close sdk id true w = (.ok (), ⟨{ w.state with
      files := w.state.files.erase id
      idle := some ⟨f.path, f.resolution, handle.traverse []⟩ }, w.calls + 1⟩) := by
  have hlook := look_file id w
  rw [hfile] at hlook
  refine Decoder.bind_eq_ok.2 ⟨_, _, hlook, ?_⟩
  refine Decoder.bind_eq_ok.2 ⟨_, _, rfl, Decoder.bind_eq_ok.2 ⟨_, _, rfl, ?_⟩⟩
  rw [hnative]
  dsimp only
  rw [if_pos ⟨rfl, hlast, hidentity, hreusable, hselected⟩]
  refine Decoder.bind_eq_ok.2 ⟨_, _, rfl, ?_⟩
  rw [hpark]
  rfl

end

end Ondas.Wlf
