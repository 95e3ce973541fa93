import Ondas.Wlf.Suspend

/-!
# The batches of a suspended query

The batches that the `next` jobs of a query answer have its records, each once and in order, up to
the first batch with an error; a `next` that fails loses none of them (`batches_continue`). When
nothing that the query asks for fails (`Lasting`), no `next` fails and no batch has an error, so
that one `next` more than there are records hands over all of them (`batches_whole`). Both are by
induction on the jobs: what one job of the query does is `next_transfers` and `next_lasting`, and a
job of another session leaves it suspended (`other_frame`).
-/

namespace Ondas.Wlf

open Library Job

/-! ## Jobs that answer -/

/-- A job that answers as asked, whatever the state is. -/
def Answering {α : Type} (Q : α → Prop) (x : Job α) : Prop := ∀ w, ∃ a w', x w = (.ok a, w') ∧ Q a

section
variable {α β : Type} {sdk : Sdk} {id : Nat} {path name : Path}

theorem Answering.pure {Q : α → Prop} {a : α} (h : Q a) : Answering Q (Pure.pure a : Job α) :=
  fun w => ⟨a, w, rfl, h⟩

theorem Answering.call {Q : α → Prop} {f : Nat → α} (h : ∀ k, Q (f k)) : Answering Q (Job.call f) :=
  fun w => ⟨_, _, rfl, h w.calls⟩

/-- An answer that two jobs give one after the other. -/
theorem Answering.bind {Q : α → Prop} {R : β → Prop} {x : Job α} {f : α → Job β}
    (hx : Answering Q x) (hf : ∀ a, Q a → Answering R (f a)) : Answering R (x >>= f) := by
  intro w
  obtain ⟨a, w', hrun, ha⟩ := hx w
  obtain ⟨b, w'', hrun', hb⟩ := hf a ha w'
  exact ⟨b, w'', (Decoder.bind_of_ok hrun).trans hrun', hb⟩

/-- A call whose answer does not matter. -/
theorem Answering.any (f : Nat → α) : Answering (fun _ => True) (Job.call f) :=
  .call fun _ => True.intro

/-- Reading a file ends, with its content or without. -/
theorem answering_readLoop (sdk : Sdk) (fuel remaining : Nat) (content : List UInt8) :
    Answering (fun _ => True) (readLoop sdk fuel remaining content) := by
  induction fuel generalizing remaining content with
  | zero => exact .pure True.intro
  | succ fuel ih =>
    unfold readLoop
    split
    · exact .pure True.intro
    · refine Answering.bind (.any _) fun read _ => ?_
      split
      · exact .pure True.intro
      · exact .pure True.intro
      · exact ih _ _

/-- A file has a content identity or none. -/
theorem answering_contentIdentity (sdk : Sdk) (path : Path) :
    Answering (fun _ => True) (contentIdentity sdk path) := by
  refine Answering.bind (.any _) fun before _ => ?_
  cases before with
  | none => exact .pure True.intro
  | some before =>
    refine Answering.bind (.any _) fun opened _ => ?_
    split
    · exact .pure True.intro
    refine Answering.bind (.any _) fun described _ => ?_
    split
    · exact .pure True.intro
    refine Answering.bind (answering_readLoop sdk _ _ _) fun content _ => ?_
    cases content with
    | none => exact .pure True.intro
    | some content =>
      refine Answering.bind (.any _) fun extra _ => ?_
      split
      · exact .pure True.intro
      refine Answering.bind (.any _) fun described _ => ?_
      split
      · exact .pure True.intro
      refine Answering.bind (.any _) fun after _ => ?_
      split <;> exact .pure True.intro

/-- A file that the library opens gets a handle. -/
theorem answering_openHandle
    (hopens : ∀ k, ∃ raw, sdk.openOwner k path name false = .ok (some raw)) :
    Answering (fun handle => handle.owner.path = path) (openHandle sdk path name false) := by
  refine Answering.bind (Q := fun _ => True) (.any _) fun before _ => ?_
  refine Answering.bind (Q := fun opened => ∃ raw, opened = .ok (some raw)) (.call hopens)
    fun opened hopened => ?_
  obtain ⟨⟨header, declarations⟩, rfl⟩ := hopened
  refine Answering.bind (answering_contentIdentity sdk path) fun hashed _ => ?_
  exact Answering.bind (Q := fun _ => True) (.pure True.intro) fun identity _ => .pure rfl

end

/-! ## Queries that last -/

/-- Nothing that a query asks the library for fails: its file is opened, its traversal is begun, and
its records are handed over. -/
structure Lasting (sdk : Sdk) (path : Path) (indices : List Nat) (start stop : Nat) : Prop where
  opens : ∀ k name, ∃ raw, sdk.openOwner k path name false = .ok (some raw)
  begins : ∀ k, ∃ found, sdk.begin k path indices start stop false = .ok found
  goes : ∀ k, sdk.next k = none

section
variable {sdk : Sdk} {id : Nat} {path : Path} {query : Query} {done rest : List NativeRecord}

/-- A session whose query lasts is found, whatever has become of its owner. -/
theorem file_lasting {w : World} {f : File} (hfile : w.state.files[id]? = some f)
    (hquery : f.query = some query)
    (hlasting : Lasting sdk f.path query.indices query.start query.stop) :
    ∃ r w', file sdk id w = (.ok r, w') := by
  -- Its owner is there when its resolution is selected, and it has not lost it.
  by_cases hlive : w.state.resolution = some f.resolution ∧ f.native.isSome = true
  · obtain ⟨handle, hnative⟩ := Option.isSome_iff_exists.1 hlive.2
    exact ⟨_, _, file_live hfile hnative hlive.1⟩
  · have hgone : (w.state.selectResolution f.resolution).files[id]? =
        some { f with native := none } := by
      unfold State.selectResolution
      split
      next hselected =>
        have hnone : f.native = none := by simpa using fun h => hlive ⟨hselected, h⟩
        rw [hfile, ← hnone]
      next => rw [State.files_reset, hfile, Option.map_some]
    obtain ⟨handle, v, hopen, hpath⟩ := answering_openHandle
      (fun k => hlasting.opens k f.name) { w with state := w.state.selectResolution f.resolution }
    obtain ⟨found, hbegin⟩ := hlasting.begins v.calls
    rw [← hpath] at hbegin
    exact ⟨_, _, file_again hfile hquery hgone hopen hbegin⟩

/-- A `next` of a query that lasts answers a batch without an error. -/
theorem next_lasting {recs : List NativeRecord} {w w' : World} {result : Except Error Batch}
    (hreplay : Replays sdk path query.indices query.start query.stop recs)
    (hlasting : Lasting sdk path query.indices query.start query.stop)
    (hdecodes : ∀ out ∈ recs, ∃ record, ownedRecord out query.encodings = .ok record)
    (hsplit : recs = done ++ rest) (h : Suspended id path query done rest w.state)
    (hrun : next sdk id w = (result, w')) :
    ∃ batch sent left, result = .ok batch ∧ batch.error = none ∧ rest = sent ++ left ∧
      Decodes query.encodings sent batch.records ∧ (batch.finished = true → left = []) ∧
      (batch.finished = true ∨ batch.records ≠ []) ∧
      Suspended id path query (done ++ sent) left w'.state := by
  have htransfers := next_transfers hreplay hsplit h hrun
  cases result with
  | error e =>
    -- The session would not have been found.
    obtain ⟨f, finished, hfile, rfl, hquery, -⟩ := h.session
    obtain ⟨r, v, hfound⟩ := file_lasting hfile hquery hlasting
    have herror := htransfers.2
    rw [hfound] at herror
    cases herror
  | ok batch =>
    obtain ⟨sent, left, hrest, hsent, hfinished, hprogress, hfault⟩ := htransfers
    have hclean : batch.error = none := by
      by_contra herror
      rcases hfault herror with ⟨k, hfail⟩ | ⟨out, hmem, hrefused⟩
      · exact hfail (hlasting.goes k)
      · obtain ⟨record, hrecord⟩ := hdecodes out (hsplit ▸ List.mem_append_right done hmem)
        exact hrefused record hrecord
    exact ⟨batch, sent, left, rfl, hclean, hrest, hsent, hfinished, hprogress hclean⟩

end

/-! ## Runs of jobs -/

/-- A `next` job of a session. -/
def Command.isNext (id : Nat) : Command → Bool
  | .next id' => id' = id
  | _ => false

/-- The batch that a `next` job of a session answers. -/
def batchOf (id : Nat) (command : Command) (answer : Except Error Answer) : Option Batch :=
  match command, answer with
  | .next id', .ok (.batch batch) => if id' = id then some batch else none
  | _, _ => none

/-- The batches that the `next` jobs of a session answer. -/
def batches (id : Nat) (commands : List Command) (answers : List (Except Error Answer)) :
    List Batch :=
  (commands.zip answers).filterMap fun job => batchOf id job.1 job.2

/-- The batches of a run are those of its first job and of the later ones. -/
theorem batches_cons (id : Nat) (command : Command) (commands : List Command)
    (answer : Except Error Answer) (answers : List (Except Error Answer)) :
    batches id (command :: commands) (answer :: answers) =
      (batchOf id command answer).toList ++ batches id commands answers := by
  rw [batches, batches, List.zip_cons_cons, List.filterMap_cons]
  cases batchOf id command answer <;> rfl

/-- A batch of a query with records to come, after other batches: together they have the next of
these records, the end is told only when none is left, and without an error some progress was
made. -/
structure Continues (encodings : List Encoding) (rest : List NativeRecord) (before : List Batch)
    (batch : Batch) : Prop where
  records : ∃ sent left, rest = sent ++ left ∧
    Decodes encodings sent ((before ++ [batch]).flatMap Batch.records) ∧
      (batch.finished = true → left = [])
  progress : batch.error = none → batch.finished = true ∨ batch.records ≠ []

section
variable {sdk : Sdk} {id : Nat} {path : Path} {query : Query} {recs : List NativeRecord}

/-- A batch has the next records when one before it has others. -/
theorem Continues.cons {encodings : List Encoding} {sent left : List NativeRecord}
    {before : List Batch} {first batch : Batch} (hfirst : Decodes encodings sent first.records)
    (h : Continues encodings left before batch) :
    Continues encodings (sent ++ left) (first :: before) batch := by
  obtain ⟨sent', left', rfl, hdecodes, hfinished⟩ := h.records
  refine ⟨⟨sent ++ sent', left', (List.append_assoc _ _ _).symm, ?_, hfinished⟩, h.progress⟩
  rw [List.cons_append, List.flatMap_cons]
  exact List.rel_append hfirst hdecodes

/-- The batches of a suspended query go on with the records to come. -/
theorem batches_continue (hreplay : Replays sdk path query.indices query.start query.stop recs)
    (commands : List Command)
    (hcommands : ∀ command ∈ commands, command = .next id ∨ command.Other id)
    {w : World} {issued : Nat} {done rest : List NativeRecord}
    (hs : w.state.Sound (fun _ _ => True) issued) (hsplit : recs = done ++ rest)
    (h : Suspended id path query done rest w.state) {before after : List Batch} {batch : Batch}
    (hbatches : batches id commands (runJobs sdk commands w).1 = before ++ batch :: after)
    (hclean : ∀ batch ∈ before, batch.error = none) :
    Continues query.encodings rest before batch := by
  induction commands generalizing w done rest before with
  | nil => cases before <;> cases hbatches
  | cons command commands ih =>
    rcases hrun : command.job sdk w with ⟨result, w'⟩
    rw [runJobs, hrun] at hbatches
    have hs' := (job_sound (fun _ => True.intro) command hs hrun
      fun _ _ _ _ _ _ _ _ _ => True.intro).1
    have hcommands' : ∀ command ∈ commands, command = .next id ∨ command.Other id :=
      fun command hmem => hcommands command (.tail _ hmem)
    rcases hcommands command (.head _) with rfl | hother
    · obtain ⟨result', hnext, rfl⟩ := answer_eq hrun
      have htransfers := next_transfers hreplay hsplit h hnext
      cases result' with
      | error e =>
        rw [batches_cons] at hbatches
        exact ih hcommands' hs' hsplit htransfers.1 hbatches hclean
      | ok first =>
        obtain ⟨sent, left, rfl, hdecodes, hfinished, hprogress, -⟩ := htransfers
        have hfirst : batchOf id (.next id) (Except.map .batch (.ok first)) = some first :=
          if_pos rfl
        rw [batches_cons, hfirst, Option.toList_some, List.singleton_append] at hbatches
        cases before with
        | nil =>
          obtain ⟨rfl, -⟩ := List.cons.inj hbatches
          refine ⟨⟨sent, left, rfl, ?_, hfinished⟩, fun hclean => (hprogress hclean).1⟩
          rw [List.nil_append, List.flatMap_singleton]
          exact hdecodes
        | cons first' before =>
          rw [List.cons_append] at hbatches
          obtain ⟨rfl, htail⟩ := List.cons.inj hbatches
          have hsuspended := (hprogress (hclean first (.head _))).2
          rw [← List.append_assoc] at hsplit
          exact (ih hcommands' hs' hsplit hsuspended htail
            fun batch hmem => hclean batch (.tail _ hmem)).cons hdecodes
    · obtain ⟨file, -, hfile, -⟩ := h.session
      have hframe : Frame id w.state (command.job sdk w).2.state :=
        other_frame hother (hs.ids id file hfile)
      rw [hrun] at hframe
      have hskip : batchOf id command result = none := by
        unfold batchOf
        split
        · exact if_neg hother
        · rfl
      rw [batches_cons, hskip] at hbatches
      exact ih hcommands' hs' hsplit (h.frame hframe) hbatches hclean

/-- **A query that lasts is handed over as a whole.** Every `next` answers a batch without an error;
together the batches have the first of the records to come, and all of them, with the end, when the
jobs ask more often than there are records. -/
theorem batches_whole (hreplay : Replays sdk path query.indices query.start query.stop recs)
    (hlasting : Lasting sdk path query.indices query.start query.stop)
    (hdecodes : ∀ out ∈ recs, ∃ record, ownedRecord out query.encodings = .ok record)
    (commands : List Command)
    (hcommands : ∀ command ∈ commands, command = .next id ∨ command.Other id)
    {w : World} {issued : Nat} {done rest : List NativeRecord}
    (hs : w.state.Sound (fun _ _ => True) issued) (hsplit : recs = done ++ rest)
    (h : Suspended id path query done rest w.state) :
    (∀ job ∈ commands.zip (runJobs sdk commands w).1, job.1 = .next id →
      ∃ batch, job.2 = .ok (.batch batch) ∧ batch.error = none) ∧
    ∃ sent left, rest = sent ++ left ∧
      Decodes query.encodings sent
        ((batches id commands (runJobs sdk commands w).1).flatMap Batch.records) ∧
      (rest.length < commands.countP (Command.isNext id) → left = [] ∧
        ∃ batch ∈ batches id commands (runJobs sdk commands w).1, batch.finished = true) := by
  induction commands generalizing w done rest with
  | nil =>
    refine ⟨fun job hmem => ?_, [], rest, rfl, .nil, fun hasks => ?_⟩
    · cases hmem
    · exact absurd hasks (Nat.not_lt_zero _)
  | cons command commands ih =>
    rcases hrun : command.job sdk w with ⟨result, w'⟩
    rw [runJobs, hrun]
    have hs' := (job_sound (fun _ => True.intro) command hs hrun
      fun _ _ _ _ _ _ _ _ _ => True.intro).1
    have hcommands' : ∀ command ∈ commands, command = .next id ∨ command.Other id :=
      fun command hmem => hcommands command (.tail _ hmem)
    rcases hcommands command (.head _) with rfl | hother
    · obtain ⟨result', hnext, rfl⟩ := answer_eq hrun
      obtain ⟨first, sent, left, rfl, hclean, rfl, hsent, hfinished, hprogress, hsuspended⟩ :=
        next_lasting hreplay hlasting hdecodes hsplit h hnext
      rw [← List.append_assoc] at hsplit
      obtain ⟨hanswers, sent', left', hleft, hsent', hwhole⟩ := ih hcommands' hs' hsplit hsuspended
      have hfirst : batchOf id (.next id) (Except.map .batch (.ok first)) = some first := if_pos rfl
      have hasked : Command.isNext id (.next id) = true := decide_eq_true rfl
      dsimp only
      rw [batches_cons, hfirst, Option.toList_some, List.singleton_append, List.flatMap_cons,
        List.countP_cons_of_pos hasked, List.zip_cons_cons]
      refine ⟨fun job hmem heq => ?_, sent ++ sent', left', ?_, List.rel_append hsent hsent',
        fun hasks => ?_⟩
      · rcases List.mem_cons.1 hmem with rfl | hmem
        · exact ⟨first, rfl, hclean⟩
        · exact hanswers job hmem heq
      · rw [hleft, List.append_assoc]
      · -- The end is told, or a record was handed over.
        rcases hprogress with hend | hsome
        · have hnil : sent' ++ left' = [] := hleft.symm.trans (hfinished hend)
          exact ⟨(List.append_eq_nil_iff.1 hnil).2, first, .head _, hend⟩
        · have hpos : 0 < sent.length := by
            rw [hsent.length_eq]
            exact List.length_pos_iff.2 hsome
          rw [List.length_append] at hasks
          obtain ⟨hnil, batch, hmem, hend⟩ := hwhole (by omega)
          exact ⟨hnil, batch, .tail _ hmem, hend⟩
    · obtain ⟨file, -, hfile, -⟩ := h.session
      have hframe : Frame id w.state (command.job sdk w).2.state :=
        other_frame hother (hs.ids id file hfile)
      rw [hrun] at hframe
      have hskip : batchOf id command result = none := by
        unfold batchOf
        split
        · exact if_neg hother
        · rfl
      have hnot : ¬ Command.isNext id command = true := by
        cases command <;> simp_all [Command.isNext, Command.Other]
      obtain ⟨hanswers, hwhole⟩ := ih hcommands' hs' hsplit (h.frame hframe)
      dsimp only
      rw [batches_cons, hskip, List.countP_cons_of_neg hnot, List.zip_cons_cons]
      refine ⟨fun job hmem heq => ?_, hwhole⟩
      rcases List.mem_cons.1 hmem with rfl | hmem
      · exact absurd (by rw [show command = .next id from heq]; exact decide_eq_true rfl) hnot
      · exact hanswers job hmem heq

/-- The files of the owners, over a run. -/
theorem runJobs_sourced (commands : List Command) {w : World} (h : w.state.Sourced) :
    (runJobs sdk commands w).2.state.Sourced := by
  induction commands generalizing w with
  | nil => exact h
  | cons command commands ih =>
    rcases hrun : command.job sdk w with ⟨e | a, w'⟩
    · rw [runJobs, hrun]
      exact ih ((job_sources command w h).2 e w' hrun)
    · rw [runJobs, hrun]
      exact ih ((job_sources command w h).1 a w' hrun).1

theorem sourced_initial : State.initial.Sourced := by
  refine ⟨fun id file handle hfile => ?_, nofun⟩
  simp [State.initial] at hfile

end

/-- Records are transferred in one way. -/
theorem Decodes.unique {encodings : List Encoding} {recs : List NativeRecord}
    {records records' : List Record} (h : Decodes encodings recs records)
    (h' : Decodes encodings recs records') : records = records' := by
  induction h generalizing records' with
  | nil => cases h'; rfl
  | cons hfirst _ ih =>
    cases h' with
    | cons hfirst' hrest' =>
      rw [ih hrest', Except.ok.inj (hfirst.symm.trans hfirst')]

/-- Records that are transferred are not refused. -/
theorem Decodes.decoded {encodings : List Encoding} {recs : List NativeRecord}
    {records : List Record} (h : Decodes encodings recs records) {out : NativeRecord}
    (hmem : out ∈ recs) : ∃ record, ownedRecord out encodings = .ok record := by
  induction h with
  | nil => cases hmem
  | cons hfirst _ ih =>
    rcases List.mem_cons.1 hmem with rfl | hmem
    · exact ⟨_, hfirst⟩
    · exact ih hmem

/-- **A suspended query loses and repeats nothing.** A query is started in a state that jobs lead
to; its `next` jobs come with any jobs of other sessions in between. Then the batches that it
answers, up to one with an error, have the records of its traversal one after the other, each once
and in order; the end is told only after the last one, and each batch has some records or tells the
end. When nothing that the query asks for fails and no record is refused, every `next` answers a
batch without an error, and one `next` more than there are records hands over all of them and tells
the end. -/
theorem next_suspended (sdk : Sdk) (before commands : List Command) (id start stop : Nat)
    (indices : List Nat) (f : File) (recs : List NativeRecord) (w : World)
    (hfile : (runJobs sdk before ⟨State.initial, 0⟩).2.state.files[id]? = some f)
    (hreplay : Replays sdk f.path indices start stop recs)
    (hbegin : begin sdk id indices start stop (runJobs sdk before ⟨State.initial, 0⟩).2 =
      (.ok (), w))
    (hcommands : ∀ command ∈ commands, command = .next id ∨ command.Other id) :
    ∃ encodings, (indices.mapM fun index => f.encodings[index]?) = some encodings ∧
      (∀ (before after : List Batch) (batch : Batch),
        batches id commands (runJobs sdk commands w).1 = before ++ batch :: after →
        (∀ batch ∈ before, batch.error = none) → Continues encodings recs before batch) ∧
      ∀ records, Lasting sdk f.path indices start stop → Decodes encodings recs records →
        (∀ job ∈ commands.zip (runJobs sdk commands w).1, job.1 = .next id →
          ∃ batch, job.2 = .ok (.batch batch) ∧ batch.error = none) ∧
        (batches id commands (runJobs sdk commands w).1).flatMap Batch.records <+: records ∧
        (recs.length < commands.countP (Command.isNext id) →
          (batches id commands (runJobs sdk commands w).1).flatMap Batch.records = records ∧
            ∃ batch ∈ batches id commands (runJobs sdk commands w).1, batch.finished = true) := by
  have hsteady : ∀ (commands : List Command) (w : World),
      SteadyRun sdk (fun _ _ => True) commands w := by
    intro commands
    induction commands with
    | nil => exact fun _ => True.intro
    | cons command commands ih => exact fun w => ⟨fun _ _ _ _ _ _ _ _ _ => True.intro, ih _⟩
  obtain ⟨hs, -⟩ := runJobs_sound (P := fun _ _ => True) (w := ⟨State.initial, 0⟩)
    (fun _ => True.intro) before State.sound_initial (hsteady before _)
  obtain ⟨encodings, hencodings, hsuspended⟩ :=
    begin_suspends (runJobs_sourced before sourced_initial) hfile hreplay hbegin
  have hs' := begin_sound hs hbegin fun _ _ _ _ _ _ _ _ _ => True.intro
  refine ⟨encodings, hencodings, fun before after batch hbatches hclean => ?_,
    fun records hlasting hdecodes => ?_⟩
  · show Continues (⟨indices, encodings, start, stop, none, false⟩ : Query).encodings recs
      before batch
    exact batches_continue hreplay commands hcommands hs'.1 rfl hsuspended hbatches hclean
  · obtain ⟨hanswers, sent, left, hsplit, hsent, hwhole⟩ := batches_whole hreplay hlasting
      (fun out hmem => hdecodes.decoded hmem) commands hcommands hs'.1 rfl hsuspended
    subst hsplit
    have hfirst := List.forall₂_take sent.length hdecodes
    rw [List.take_left] at hfirst
    refine ⟨hanswers, hsent.unique hfirst ▸ List.take_prefix _ _, fun hasks => ?_⟩
    obtain ⟨rfl, hend⟩ := hwhole hasks
    rw [List.append_nil] at hdecodes
    exact ⟨hsent.unique hdecodes, hend⟩

/-! ## A query whose owner is dropped -/

/-- An empty text. -/
theorem string_empty : string (some []) = .ok (some "") := by
  have hvalid : ByteArray.IsValidUTF8 ⟨[].toArray⟩ := ⟨[], rfl⟩
  rw [string, String.fromUTF8?, dif_pos hvalid]
  rfl

/-- Two records of a real. -/
def twoReals : List NativeRecord := [⟨0, 1, 1, none, 0, 0⟩, ⟨0, 2, 1, none, 0, 1⟩]

/-- The declaration of a real. -/
def oneReal : NativeDeclaration :=
  ⟨0, noParent, 1, 2, 0, 0, 0, 0, 0, 0, 0, 0, some [], some [], none, 0, 0, []⟩

/-- A library whose calls all succeed, with two files of different resolutions. It ends a batch
after each record. -/
def twoFiles : Sdk where
  stat _ _ := none
  openFile _ _ := false
  fstat _ := none
  read _ _ := none
  digest _ := []
  openOwner _ path _ _ := .ok (some (⟨0, 5, if path = [97] then 9 else 6, none⟩, [oneReal]))
  begin _ _ _ _ _ _ := .ok twoReals
  pointStart _ _ _ := .ok none
  next _ := none
  batchEnd _ left := if left = [] then 2 else 1
  park _ := true

/-- Three batches are asked for; after the first one another file is opened. -/
def dropping : List Command := [.next 1, .open [98] "b", .next 1, .next 1]

/-- The owner of the first file. -/
def realHandle : Handle := ⟨⟨[97], ⟨0, 5, 9, none⟩, [oneReal], [], 0⟩, none, true⟩

/-- Its session. -/
def realSession (native : Option Handle) (query : Option Query) : File :=
  ⟨[97], sessionName 1, 9, 5, [.real], native, query⟩

/-- The query after a record. -/
def realQuery (last : Option (Nat × Nat)) (finished : Bool) : Query :=
  ⟨[0], [.real], 0, 5, last, finished⟩

/-- The one declaration is read as a real. -/
theorem declarations_oneReal : declarations 0 [oneReal] =
    .ok [⟨0, none, false, .real, 0, false, none, 0, 0, "", "", none, false, [], 0⟩] := by
  simp [oneReal, declarations, declaration, declaredEncoding, required, string_empty, bind,
    Except.bind]
  simp [string]

/-- The session of the first file is found in a state with its resolution. -/
theorem realSession_live (state : State) (hselected : state.resolution = some 9) (handle : Handle)
    (query : Option Query) (calls : Nat) :
    file twoFiles 1 ⟨state.put 1 (realSession (some handle) query), calls⟩ =
      (.ok (realSession (some handle) query, handle),
        ⟨state.put 1 (realSession (some handle) query), calls⟩) :=
  file_live Std.HashMap.getElem?_insert_self rfl hselected

/-- It is opened, and the query is started. -/
theorem dropping_begins : ∃ state : State, state.resolution = some 9 ∧ state.nextId = 1 ∧
    state.idle = none ∧
    (runJobs twoFiles [.open [97] "a"] ⟨State.initial, 0⟩).2.state.files[1]? =
      some (realSession (some realHandle) none) ∧
    begin twoFiles 1 [0] 0 5 (runJobs twoFiles [.open [97] "a"] ⟨State.initial, 0⟩).2 =
      (.ok (),
        ⟨state.put 1 (realSession (some (realHandle.traverse twoReals)) (realQuery none false)),
          4⟩) := by
  set header : Metadata := ⟨"a", some ⟨1, .microsecond⟩, some ⟨0, 5⟩, none, none, []⟩
  have hheader : metadata ⟨0, 5, 9, none⟩ "a" = .ok header := by decide
  set files := State.initial.reset.files
  set opened : State := State.put ⟨files, 1, some 9, none⟩ 1 (realSession (some realHandle) none)
  have hhandle : openHandle twoFiles [97] (sessionName 1) false ⟨⟨files, 1, none, none⟩, 0⟩ =
      (.ok realHandle, ⟨⟨files, 1, none, none⟩, 3⟩) := rfl
  have hopen : «open» twoFiles [97] "a" ⟨State.initial, 0⟩ = (.ok ⟨1, header, _⟩, ⟨opened, 3⟩) :=
    open_new (w := ⟨State.initial, 0⟩) (v := ⟨⟨∅, 1, none, none⟩, 0⟩)
      (u := ⟨⟨files, 1, none, none⟩, 3⟩) (by decide) rfl hhandle hheader declarations_oneReal
  have hjob : (Command.open [97] "a").job twoFiles ⟨State.initial, 0⟩ =
      (.ok (.opened _), ⟨opened, 3⟩) :=
    Decoder.bind_eq_ok.2 ⟨_, _, hopen, rfl⟩
  rw [runJobs_cons hjob]
  refine ⟨opened, rfl, rfl, rfl, Std.HashMap.getElem?_insert_self, ?_⟩
  have hfile := realSession_live ⟨files, 1, some 9, none⟩ rfl realHandle none 3
  exact begin_eq hfile rfl rfl

/-- What the three jobs of the query answer: the two records, and the end again. -/
theorem dropping_answers {state : State} (hselected : state.resolution = some 9)
    (hnext : state.nextId = 1) (hidle : state.idle = none) :
    batches 1 dropping (runJobs twoFiles dropping ⟨state.put 1
        (realSession (some (realHandle.traverse twoReals)) (realQuery none false)), 4⟩).1 =
      [⟨[⟨0, 1, .real 0⟩], false, none⟩, ⟨[⟨0, 2, .real 1⟩], true, none⟩, ⟨[], true, none⟩] := by
  obtain ⟨files, nextId, resolution, idle⟩ := state
  cases hselected
  cases hnext
  cases hidle
  -- The first record.
  set begun := State.put ⟨files, 1, some 9, none⟩ 1
    (realSession (some (realHandle.traverse twoReals)) (realQuery none false))
  set read := begun.put 1
    (realSession (some (realHandle.traverse twoReals.tail)) (realQuery (some (1, 0)) false))
  have hloop₁ : nextLoop twoFiles 3 (realQuery none false) [] ⟨realHandle.traverse twoReals, 4⟩ =
      (.ok (⟨[⟨0, 1, .real 0⟩], false, none⟩, realQuery (some (1, 0)) false),
        ⟨realHandle.traverse twoReals.tail, 6⟩) := rfl
  have hjob₁ : (Command.next 1).job twoFiles ⟨begun, 4⟩ =
      (.ok (.batch ⟨[⟨0, 1, .real 0⟩], false, none⟩), ⟨read, 6⟩) := by
    have hnext := next_eq (realSession_live ⟨files, 1, some 9, none⟩ rfl
      (realHandle.traverse twoReals) (some (realQuery none false)) 4) rfl rfl hloop₁
    exact Decoder.bind_eq_ok.2 ⟨_, _, hnext, rfl⟩
  -- The other file drops the owner.
  set other : Handle := ⟨⟨[98], ⟨0, 5, 6, none⟩, [oneReal], [], 0⟩, none, true⟩
  set header : Metadata := ⟨"b", some ⟨1, .nanosecond⟩, some ⟨0, 5⟩, none, none, []⟩
  have hheader : metadata ⟨0, 5, 6, none⟩ "b" = .ok header := by decide
  set dropped : State := ⟨read.reset.files, 2, none, none⟩
  have hhandle : openHandle twoFiles [98] (sessionName 2) false ⟨dropped, 6⟩ =
      (.ok other, ⟨dropped, 9⟩) := rfl
  obtain ⟨opened, hjob₂, hresolution, hfile⟩ : ∃ opened : State,
      (Command.open [98] "b").job twoFiles ⟨read, 6⟩ = (.ok (.opened ⟨2, header, _⟩), ⟨opened, 9⟩) ∧
        opened.resolution = some 6 ∧
        opened.files[1]? = some (realSession none (realQuery (some (1, 0)) false)) := by
    have hopen := open_new (w := ⟨read, 6⟩) (v := ⟨⟨read.files, 2, some 9, none⟩, 6⟩)
      (u := ⟨dropped, 9⟩) (show 2 ≤ u64Max by decide) rfl hhandle hheader declarations_oneReal
    refine ⟨_, Decoder.bind_eq_ok.2 ⟨_, _, hopen, rfl⟩, rfl, ?_⟩
    rw [State.registered, State.put, Std.HashMap.getElem?_insert]
    refine (if_neg (show ¬ ((2 : Nat) == 1) = true by decide)).trans ?_
    show read.reset.files[1]? = _
    rw [State.files_reset, show read.files[1]? = _ from Std.HashMap.getElem?_insert_self]
    rfl
  clear_value dropped read begun
  -- It is opened again, and the query goes on behind the first record.
  set selected := opened.selectResolution 9 with hselected
  set restarted := selected.put 1
    (realSession (some (realHandle.traverse twoReals)) (realQuery (some (1, 0)) false))
  have hlive : selected.resolution = some 9 ∧
      selected.files[1]? = some (realSession none (realQuery (some (1, 0)) false)) := by
    have hother : ¬ opened.resolution = some 9 := by
      rw [hresolution]
      decide
    rw [hselected, State.selectResolution, if_neg hother]
    refine ⟨rfl, ?_⟩
    rw [State.files_reset, hfile]
    rfl
  have hagain : openHandle twoFiles [97] (sessionName 1) false ⟨selected, 9⟩ =
      (.ok realHandle, ⟨selected, 12⟩) := rfl
  have hfound : file twoFiles 1 ⟨opened, 9⟩ =
      (.ok (realSession (some (realHandle.traverse twoReals)) (realQuery (some (1, 0)) false),
        realHandle.traverse twoReals), ⟨restarted, 13⟩) :=
    file_again (w := ⟨opened, 9⟩) (v := ⟨selected, 12⟩) hfile rfl hlive.2 hagain rfl
  set ended := restarted.put 1
    (realSession (some (realHandle.traverse [])) (realQuery (some (2, 0)) true))
  have hloop₂ : nextLoop twoFiles 3 (realQuery (some (1, 0)) false) []
      ⟨realHandle.traverse twoReals, 13⟩ =
        (.ok (⟨[⟨0, 2, .real 1⟩], true, none⟩, realQuery (some (2, 0)) true),
          ⟨realHandle.traverse [], 16⟩) := rfl
  have hjob₃ : (Command.next 1).job twoFiles ⟨opened, 9⟩ =
      (.ok (.batch ⟨[⟨0, 2, .real 1⟩], true, none⟩), ⟨ended, 16⟩) := by
    have hnext := next_eq hfound rfl rfl hloop₂
    exact Decoder.bind_eq_ok.2 ⟨_, _, hnext, rfl⟩
  have hjob₄ : (Command.next 1).job twoFiles ⟨ended, 16⟩ =
      (.ok (.batch ⟨[], true, none⟩), ⟨ended, 16⟩) := by
    have hnext := next_finished (realSession_live restarted hlive.1
      (realHandle.traverse []) (some (realQuery (some (2, 0)) true)) 16) rfl rfl
    exact Decoder.bind_eq_ok.2 ⟨_, _, hnext, rfl⟩
  rw [dropping, runJobs_cons hjob₁, runJobs_cons hjob₂, runJobs_cons hjob₃,
    runJobs_cons hjob₄, runJobs]
  rfl

/-- A query of two records, whose owner is dropped after the first one: the batches before and after
have one record each, and together all. -/
theorem next_suspended_dropped :
    ∃ w, begin twoFiles 1 [0] 0 5 (runJobs twoFiles [.open [97] "a"] ⟨State.initial, 0⟩).2 =
      (.ok (), w) ∧
      batches 1 dropping (runJobs twoFiles dropping w).1 =
        [⟨[⟨0, 1, .real 0⟩], false, none⟩, ⟨[⟨0, 2, .real 1⟩], true, none⟩, ⟨[], true, none⟩] ∧
      (∀ (before after : List Batch) (batch : Batch),
        batches 1 dropping (runJobs twoFiles dropping w).1 = before ++ batch :: after →
        (∀ batch ∈ before, batch.error = none) → Continues [.real] twoReals before batch) ∧
      (batches 1 dropping (runJobs twoFiles dropping w).1).flatMap Batch.records =
        [⟨0, 1, .real 0⟩, ⟨0, 2, .real 1⟩] := by
  obtain ⟨state, hselected, hnext, hidle, hfile, hbegin⟩ := dropping_begins
  have hreplay : Replays twoFiles [97] [0] 0 5 twoReals := by
    refine ⟨fun k found heq => by cases heq; rfl, by simp [twoReals, NativeRecord.Before], ?_⟩
    intro k left hleft
    by_contra hne
    rw [show twoFiles.batchEnd k left = 1 from if_neg hne] at hleft
    cases hleft
  have hlasting : Lasting twoFiles [97] [0] 0 5 :=
    ⟨fun k name => ⟨_, rfl⟩, fun k => ⟨_, rfl⟩, fun k => rfl⟩
  obtain ⟨encodings, hencodings, hcontinues, hwhole⟩ :=
    next_suspended twoFiles [.open [97] "a"] dropping 1 0 5 [0] _ twoReals _ hfile hreplay hbegin
      (by simp [dropping, Command.Other])
  cases hencodings
  have hdecodes : Decodes [.real] twoReals [⟨0, 1, .real 0⟩, ⟨0, 2, .real 1⟩] :=
    .cons rfl (.cons rfl .nil)
  obtain ⟨-, -, hall⟩ := hwhole _ hlasting hdecodes
  exact ⟨_, hbegin, dropping_answers hselected hnext hidle, hcontinues, (hall (by decide)).1⟩

end Ondas.Wlf
