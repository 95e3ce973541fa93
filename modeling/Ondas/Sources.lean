import Ondas.Widths

/-!
# Widths from the file to the slots

A selection reads a file through one of the readers: an opened VCD body (`Vcd.Reader.sourceIn`),
an FST file (`Fst.Reader.source`), or an accepted GHW file (`Ghw.Reader.IsSource`). Whichever it is,
the reader hands over values that are as wide as their histories (`FileSource.handsSized`), so that
projections stay inside them and the slots of a selection hold the digits of their handles
(`accepted_widths`).
-/

namespace Ondas

open Library

/-! ## VCD -/

namespace Vcd

/-- A record as a selection is handed it. -/
def Record.handed (rec : Record) : Query.Delivery :=
  .record rec.index (.ok rec.value) rec.time (some rec.position)

/-- What a fitted record hands over is as wide as its history. -/
theorem Reader.FitsFrom.sized {r : Reader} {faults : Faults} {signals : List Signal} {stop : Nat}
    {start : Position} {record : Record} (h : r.FitsFrom faults signals stop start record) :
    Query.SizedAt r.encodings record.index record.value := by
  rintro encoding hencoding width rfl
  obtain ⟨input, payload, digits, hvalue, -, hfitted⟩ := h width hencoding
  rcases hvalue with ⟨-, hvalue⟩ | ⟨-, hvalue⟩
  · exact ⟨digits, hvalue, hfitted.length⟩
  · exact ⟨_, hvalue, (List.length_map _).trans hfitted.length⟩

/-- What the operating system does while a selection reads a body: which reads of the file fail,
which threads start, and the order of their steps, which `full` shows only in what they return. -/
structure System (r : Reader) where
  faults : Faults
  chunkEnv : PrefixEnv
  fullEnv : FullEnv
  full : ∀ {σ B : Type}, List Signal → Nat → (σ → Record → σ × ControlFlow B) → σ →
    Option (Reader × σ × Except Error (ControlFlow B))
  ends : ∀ {σ B : Type} (signals : List Signal) (stop : Nat)
    (visitor : σ → Record → σ × ControlFlow B) (c : σ),
    r.FullEnds fullEnv signals stop visitor c (full signals stop visitor c)

/-- `Reader::read_from` under a system. -/
def System.read {r : Reader} (system : System r) {σ B : Type} (signals : List Signal) (stop : Nat)
    (position : Option Position) (visitor : σ → Record → σ × ControlFlow B) (c : σ) :
    Reader × σ × Except Error (ControlFlow B) :=
  r.readFrom system.faults (fun _ => system.full signals stop visitor c) signals stop position
    visitor c

/-- The reader as a selection uses it, also when reads of the file fail. -/
def Reader.sourceIn (r : Reader) (system : System r) : Query.Source where
  backend := "vcd-native"
  read := fun bases stop origin callback c =>
    returned (system.read bases stop origin (onDelivery callback) c)
  parallelPrefix := r.parallelPrefix system.chunkEnv

/-- A schedule is a system in which no read of the file fails. -/
def Schedule.system {r : Reader} (schedule : Schedule r) : System r where
  faults := .none
  chunkEnv := schedule.chunkEnv
  fullEnv := schedule.fullEnv
  full := schedule.full
  ends := schedule.ends

/-- A selection uses a schedule as it uses its system. -/
theorem Reader.sourceIn_system {r : Reader} (schedule : Schedule r) :
    r.sourceIn schedule.system = r.source schedule := rfl

section
variable {r opened : Reader} {o : Opened} {bases : List Signal} {stop : Nat}

/-- A read of an opened body hands over fitted records under any system. -/
theorem Reader.Opens.system_fitted (h : r.Opens o opened) (system : System opened)
    (bases : List Signal) (stop : Nat) (origin : Option Position) {σ B : Type}
    (visitor : σ → Record → σ × ControlFlow B) (c : σ) :
    opened.HandsFitted system.faults bases stop origin visitor c
      (system.read bases stop origin visitor c) :=
  h.reads_fitted system.faults system.fullEnv stop origin (system.ends bases stop visitor c)

/-- What a parallel prefix of an opened body observes is sized. -/
theorem Reader.Opens.prefix_sized (h : r.Opens o opened) {env : PrefixEnv} {w : Query.Waveform}
    (hw : w.encodings = o.encodings)
    (hbases : ∀ base ∈ bases, w.Valid base ∧ base.computed = false ∧ base.isSlice = false)
    {samples : List Query.Sample} {position : Position}
    (hobserved : opened.parallelPrefix env bases stop = some (samples, position)) :
    ∀ sample ∈ samples, Query.Sample.SizedIn o.encodings sample := by
  cases h with
  | serial _ hserial =>
    have hnone : (r.opened o).parallel = none := hserial
    simp only [Reader.parallelPrefix, hnone] at hobserved
    cases hobserved
  | chunks hhead hcut hopen =>
    obtain ⟨recs, later, hremains, -, -, rfl, -, -⟩ := parallelPrefix_remains hhead hcut hopen hw
      (fun base hbase => ⟨(hbases base hbase).1, (hbases base hbase).2.1⟩) hobserved
    intro sample hsample
    obtain ⟨base, hbase, rfl⟩ := List.mem_map.1 hsample
    rw [← hw]
    refine Query.Waveform.sampleAt_sized (hbases base hbase).2.1 (hbases base hbase).2.2
      (fun plain hplain => ?_) stop
    obtain ⟨rec, hrec, rfl⟩ := List.mem_map.1 hplain
    obtain ⟨v, out, hrecords, hrun⟩ := hremains
    rintro encoding hencoding width rfl
    have hbits : o.encodings[rec.index]? = some (.bits width) := hw ▸ hencoding
    obtain ⟨payload, digits, -, hvalue, hfitted⟩ := walk_bits rfl hrun rec
      (hrecords ▸ List.mem_append_left later hrec) width hbits
    exact ⟨digits, hvalue, hfitted.length⟩

/-- An opened body hands a selection values that are as wide as their histories. -/
theorem Reader.Opens.handsSized (h : r.Opens o opened) (system : System opened) :
    (opened.sourceIn system).HandsSized o.encodings where
  read := fun bases stop origin callback c => by
    obtain ⟨recs, ending, hreturned, hfits⟩ :=
      h.system_fitted system bases stop origin (onDelivery callback) c
    refine ⟨recs.map Record.handed, ending, ?_, fun d hd => ?_⟩
    · rw [visit_map]
      exact hreturned
    · obtain ⟨rec, hrec, rfl⟩ := List.mem_map.1 hd
      exact h.encodings ▸ (hfits rec hrec).sized
  parallelPrefix := fun _ _ _ _ _ hw hbases hobserved => h.prefix_sized hw hbases hobserved

end

end Vcd

/-! ## FST -/

namespace Fst

/-- The reader as a selection uses it, which reads nothing for no histories and from the start
always. -/
def Reader.source (r : Reader) : Query.Source where
  backend := "fst-lib"
  read := fun bases stop _ callback c =>
    if bases.isEmpty then (c, .ok .continue, none)
    else
      match r.read bases 0 stop
        (fun c index time value => callback c (.record index (.ok value) time none)) c with
      | (c, outcome) => (c, outcome, none)
  parallelPrefix := fun _ _ => none

/-- A record as a selection is handed it. -/
def handed (rec : Query.Record) : Query.Delivery := .record rec.base (.ok rec.value) rec.time none

/-- An FST file hands a selection values that are as wide as their histories. -/
theorem Reader.handsSized (r : Reader) : r.source.HandsSized r.encodings where
  read := fun bases stop origin callback c => by
    by_cases hempty : bases.isEmpty
    · refine ⟨[], .ok none, ?_, fun d hd => by cases hd⟩
      simp only [Reader.source, hempty, if_true, visit_nil]
      rfl
    obtain ⟨recs, ending, hhands, hsized⟩ := r.hands bases 0 stop
    refine ⟨recs.map handed, ending.map fun _ => none, ?_, fun d hd => ?_⟩
    · have hread := hhands
        (fun c index time value => callback c (.record index (.ok value) time none)) c
      have hvisit : visit callback c (recs.map handed) =
          visit (fun c rec => callback c (handed rec)) c recs := visit_map callback handed c recs
      simp only [Reader.source, hempty, Bool.false_eq_true, if_false, hread, hvisit, handed]
      rcases visit (fun c (rec : Query.Record) =>
        callback c (.record rec.base (.ok rec.value) rec.time none)) c recs with ⟨c', _ | b⟩
      · cases ending <;> rfl
      · rfl
    · obtain ⟨rec, hrec, rfl⟩ := List.mem_map.1 hd
      exact hsized rec hrec
  parallelPrefix := fun _ _ _ _ _ _ _ h => by cases h

end Fst

/-! ## GHW -/

namespace Ghw

/-- A notification as a selection is handed it. -/
def Notification.handed : Notification → Query.Delivery
  | .value index time v => .record index (.ok v) time none
  | .tick time => .tick time

/-- The reader as a selection uses it: a source that returns what the reads return. What must not
happen in a read is no answer of a source. -/
structure Reader.IsSource (r : Reader) (env : ReadEnv) (src : Query.Source) : Prop where
  backend : src.backend = "ghw-native"
  read : ∀ {σ B : Type} (bases : List Signal) (stop : Nat) (origin : Option Vcd.Position)
    (callback : σ → Query.Delivery → σ × ControlFlow B) (c : σ), ∃ outcome,
      src.read bases stop origin callback c =
        ((r.read env bases stop (fun c n => callback c n.handed) c).1, outcome, none) ∧
      (r.read env bases stop (fun c n => callback c n.handed) c).2 = outcome.mapError .error
  parallelPrefix : ∀ bases stop, src.parallelPrefix bases stop = none

/-- The source of a reader. It goes on where a read meets what must not happen, which no read of an
accepted file does (`Reader.Accepted.isSource`). -/
def Reader.source (r : Reader) (env : ReadEnv) : Query.Source where
  backend := "ghw-native"
  read := fun bases stop _ callback c =>
    match r.read env bases stop (fun c n => callback c n.handed) c with
    | (c, .ok flow) => (c, .ok flow, none)
    | (c, .error (.error e)) => (c, .error e, none)
    | (c, .error (.fault _)) => (c, .ok .continue, none)
  parallelPrefix := fun _ _ => none

section
variable {r : Reader} {env : ReadEnv} {src : Query.Source}

/-- A reader of an accepted file is a source. -/
theorem Reader.Accepted.isSource (h : r.Accepted env.checked) :
    r.IsSource env (r.source env) where
  backend := rfl
  read := fun bases stop origin callback c => by
    obtain ⟨notifications, ending, hhands, -⟩ := h.hands bases stop
    have hread := hhands (fun c n => callback c n.handed) c
    simp only [Reader.source, hread]
    generalize visit (fun c n => callback c (Notification.handed n)) c notifications = visited
    obtain ⟨c', _ | b⟩ := visited
    · cases ending with
      | error e => exact ⟨.error e, rfl, rfl⟩
      | ok => exact ⟨.ok .continue, rfl, rfl⟩
    · exact ⟨.ok (.break b), rfl, rfl⟩
  parallelPrefix := fun _ _ => rfl

/-- The source of a reader answers with what its reads hand over. -/
theorem Reader.IsSource.answers (h : r.IsSource env src) {bases : List Signal} {stop : Nat}
    {notifications : List Notification} {ending : Except Error Unit}
    (hhands : r.Hands env bases stop notifications ending) (origin : Option Vcd.Position)
    {σ B : Type} (callback : σ → Query.Delivery → σ × ControlFlow B) (c : σ) :
    src.read bases stop origin callback c = Query.answered (ending.map fun _ => none)
      (visit callback c (notifications.map Notification.handed)) := by
  obtain ⟨outcome, hread, houtcome⟩ := h.read bases stop origin callback c
  rw [hhands] at hread houtcome
  rw [hread, visit_map]
  generalize visit (fun c n => callback c (Notification.handed n)) c notifications = visited
    at houtcome ⊢
  obtain ⟨c', _ | b⟩ := visited
  · cases ending <;> cases outcome <;> cases houtcome <;> rfl
  · cases outcome <;> cases houtcome
    rfl

/-- An accepted GHW file hands a selection values that are as wide as their histories. -/
theorem Reader.IsSource.handsSized (h : r.IsSource env src) (haccepted : r.Accepted env.checked) :
    src.HandsSized r.declarations.encodings where
  read := fun bases stop origin callback c => by
    obtain ⟨notifications, ending, hhands, hassembles⟩ := haccepted.hands bases stop
    refine ⟨_, _, h.answers hhands origin callback c, fun d hd => ?_⟩
    obtain ⟨n, hn, rfl⟩ := List.mem_map.1 hd
    cases n with
    | tick time => trivial
    | value index time v =>
      rcases hassembles with rfl | ⟨slots, a, events, hassembles⟩
      · cases hn
      · exact hassembles.sized haccepted index time v hn
  parallelPrefix := fun _ bases stop _ _ _ _ hobserved => by
    rw [h.parallelPrefix bases stop] at hobserved
    cases hobserved

end

end Ghw

/-! ## Sources -/

/-- A source that a selection of an accepted file reads through, with the encodings of the file. -/
inductive FileSource : List Encoding → Query.Source → Prop
  | vcd {r opened : Vcd.Reader} {o : Vcd.Opened} (system : Vcd.System opened) :
      r.Opens o opened → FileSource o.encodings (opened.sourceIn system)
  | fst (r : Fst.Reader) : FileSource r.encodings r.source
  | ghw {r : Ghw.Reader} {env : Ghw.ReadEnv} {src : Query.Source} :
      r.Accepted env.checked → r.IsSource env src → FileSource r.declarations.encodings src

/-- A selection that reads under a schedule reads through such a source. -/
theorem FileSource.schedule {r opened : Vcd.Reader} {o : Vcd.Opened} (h : r.Opens o opened)
    (schedule : Vcd.Schedule opened) : FileSource o.encodings (opened.source schedule) := by
  rw [← Vcd.Reader.sourceIn_system]
  exact .vcd schedule.system h

/-- **Readers hand over values as wide as their histories**, whatever they are asked. -/
theorem FileSource.handsSized {encodings : List Encoding} {src : Query.Source}
    (h : FileSource encodings src) : src.HandsSized encodings := by
  cases h with
  | vcd system hopens => exact hopens.handsSized system
  | fst r => exact r.handsSized
  | ghw haccepted hsource => exact hsource.handsSized haccepted

/-- **Every bit value has its width.** Over any accepted file of some encodings, whose widths are
32-bit numbers, with any registered compositions: each read hands over values as wide as their
histories, and a bit value of a VCD file has the digits of a value change fitted to its width. For
each valid handle the sums and the differences of a projection stay inside `u32` and inside the
value, and the result is as wide as the handle. Whatever operations a selection has gone through,
the next traversal shows its visitor slots that are all as wide as their handles, and leaves such
slots. -/
theorem accepted_widths {encodings : List Encoding}
    (hu32 : ∀ width, .bits width ∈ encodings → width < 2 ^ 32) (source : Nat)
    (calls : List (List Signal)) :
    let r := Query.Registry.run_extends (Query.Registry.sound_new source encodings) calls
    let w := Query.Registry.waveform _ r.1
    (∀ src, FileSource encodings src → ∀ {σ B : Type} bases stop origin
      (callback : σ → Query.Delivery → σ × ControlFlow B) (c : σ), ∃ ds ending,
      src.read bases stop origin callback c = Query.answered ending (visit callback c ds) ∧
        ∀ d ∈ ds, Query.Delivery.SizedIn encodings d) ∧
    (∀ {r opened : Vcd.Reader} {o : Vcd.Opened}, r.Opens o opened →
      ∀ (system : Vcd.System opened) bases stop origin {σ B : Type}
        (visitor : σ → Vcd.Record → σ × ControlFlow B) (c : σ),
        opened.HandsFitted system.faults bases stop origin visitor c
          (system.read bases stop origin visitor c)) ∧
    (∀ signal, w.Valid signal →
      (∀ width, signal.width = some width → signal.lsb + width < 2 ^ 32 ∧
        (signal.isSlice = true → 0 < width)) ∧
      ∀ v, Query.SizedTo signal.baseEncoding v →
        Query.projectChecked v signal = some (project v signal) ∧
        Query.SizedTo signal.encoding (project v signal)) ∧
    ∀ {sizes : Query.Sizes} {signals : List Signal} {sel : Query.Selection},
      sel.ReachedIn sizes (FileSource encodings) w signals → ∀ src, FileSource encodings src →
      ∀ {σ B : Type} (start : Option Nat) (stop : Nat) (visitor : Query.TickVisitor σ B)
        (P : σ → Prop) (c : σ),
        (∀ c t slots, P c → Query.AllSized sel.plan.retained slots → P (visitor c t slots).1) →
        P c →
        Query.AllSized sel.plan.retained
          (sel.readTicksFrom sizes src start stop visitor c).2.1 ∧
        P (sel.readTicksFrom sizes src start stop visitor c).2.2.1 := by
  intro r w
  have hencodings : w.encodings = encodings := r.2.encodings
  have hmeasured : w.Measured := r.1.measured fun width hmem => hu32 width (hencodings ▸ hmem)
  have hsized : ∀ src, FileSource encodings src → src.HandsSized w.encodings :=
    fun src hsrc => hencodings ▸ hsrc.handsSized
  refine ⟨fun src hsrc => hsrc.handsSized.read, fun hopens => hopens.system_fitted,
    fun signal hvalid => ⟨fun width hwidth => ?_, fun v hv => hvalid.projects hmeasured hv⟩, ?_⟩
  · exact hvalid.range hmeasured hwidth
  · intro sizes signals sel hreached src hsrc σ B start stop visitor P c hvisitor hc
    obtain ⟨hslots, hfits⟩ := hreached.sized hmeasured hsized
    exact (Query.readTicksFrom_sized hmeasured hfits (hsized src hsrc) hslots start stop hvisitor
      hc).2

/-- A body with one bit that is 1 at its start. -/
def bitWire : Ghw.Wire where
  bytes := ascii "SNP\x00" ++ List.replicate 12 0 ++ [1] ++ ascii "ESN\x00"
  fault := none
  offset := 0
  len := 21
  bigEndian := false
  version := 1
  buffered := 0
  fills := 0
  sizes := fun _ => 8

/-- A GHW file of one bit is accepted. -/
theorem bitWire_accepted : ∃ r : Ghw.Reader, r.Accepted true ∧
    r.declarations.encodings = [.bits 1] := by
  have hrun : ((Ghw.Types.parse Ghw.sharedStrings Ghw.sharedFile).1.toOption.bind fun t =>
      (Ghw.Declarations.read t Ghw.sharedSection).1.toOption.map fun d =>
        (d.encodings, (Ghw.walk ⟨t, d.active, 2 ^ 64 - 1⟩ true
          (fun seen e => (seen ++ [e], ControlFlow.continue (B := Empty))) [] bitWire
            ).2.1.toOption.map Prod.snd)) = some ([.bits 1], some (some ⟨0, 0⟩)) := by
    decide +kernel
  obtain ⟨t, ht, hrun⟩ := Option.bind_eq_some_iff.1 hrun
  obtain ⟨w₁, hparse⟩ := Decoder.exists_ok ht
  obtain ⟨d, hd, hrun⟩ := Option.map_eq_some_iff.1 hrun
  obtain ⟨w', hread⟩ := Decoder.exists_ok hd
  obtain ⟨hencodings, hspan⟩ := Prod.mk.inj hrun
  refine ⟨⟨⟨t, d, 0, 1, false, some ⟨0, 0⟩⟩, none, bitWire⟩,
    ⟨⟨_, _, _, hparse⟩, ⟨_, _, hread⟩, ?_⟩, hencodings⟩
  rcases hwalk : Ghw.walk ⟨t, d.active, 2 ^ 64 - 1⟩ true
    (fun seen e => (seen ++ [e], ControlFlow.continue (B := Empty))) [] bitWire with
    ⟨events, outcome, offset⟩
  rw [hwalk] at hspan
  obtain rfl : outcome = .ok (.continue, some ⟨0, 0⟩) := by
    rcases outcome with e | ⟨_ | b, span⟩
    · cases hspan
    · cases hspan
      rfl
    · exact b.elim
  exact ⟨bitWire, events, _, offset, by decide, hwalk, fun x hx => by cases hx⟩

/-- A VCD file of one bit, with a payload that is too long and one that is no number. -/
def bitReader : Vcd.Reader :=
  ((⟨0, [(ascii "!", 0)], [], [.bits 1]⟩ : Vcd.Header).reader (fun _ => none)
    (ascii "#1\nb10 !\n#2\nbx !\n")).opened ⟨some ⟨1, 2⟩, [], [.bits 1]⟩

/-- A system in which no thread starts. -/
def bitSchedule : Vcd.Schedule bitReader where
  chunkEnv := ⟨1, false, fun _ => none⟩
  fullEnv := ⟨1, false, fun _ => none⟩
  full := fun _ _ _ _ => none
  reads := fun _ => rfl
  ends := fun _ _ _ _ => rfl

/-- The bit is composed with itself. A selection of the pair is read from a VCD file, whose payloads
are fitted, and then from a GHW file; and the high bit of the pair is projected. -/
theorem accepted_widths_bit :
    let bit : Signal := ⟨7, 0, false, .bits 1, .bits 1, 0⟩
    let r := Query.Registry.run_extends (Query.Registry.sound_new 7 [.bits 1]) [[bit, bit]]
    let w := Query.Registry.waveform _ r.1
    let pair : Signal := ⟨7, 0, true, .bits 2, .bits 2, 0⟩
    let high : Signal := ⟨7, 0, true, .bits 2, .bits 1, 1⟩
    let gather (seen : List Vcd.Record) (rec : Vcd.Record) : List Vcd.Record × ControlFlow Unit :=
      (seen ++ [rec], .continue)
    let collect (seen : List (Nat × List Query.Slot)) (time : Nat) (slots : List Query.Slot) :
        List (Nat × List Query.Slot) × Except Error (ControlFlow Unit) :=
      (seen ++ [(time, slots)], .ok .continue)
    ∃ sel src, Query.Selection.new w [pair] = .ok sel ∧ FileSource [.bits 1] src ∧
      src.backend = "ghw-native" ∧
      let read := sel.readTicksFrom ⟨0, 0⟩ (bitReader.source bitSchedule) none 9 collect []
      read.2.2.1.map (fun seen => (seen.1, seen.2.map Query.Slot.current)) =
        [(1, [some (.bits (ascii "0")), some (.bits (ascii "00"))]),
          (2, [some (.bits (ascii "x")), some (.bits (ascii "xx"))])] ∧
      Query.AllSized read.1.plan.retained
        (read.1.readTicksFrom ⟨0, 0⟩ src none 9 collect []).2.1 ∧
      bitReader.HandsFitted .none [bit] 9 none gather []
        (bitSchedule.system.read [bit] 9 none gather []) ∧
      Query.projectChecked (.bits (ascii "x0")) high = some (.bits (ascii "x")) := by
  intro bit r w pair high gather collect
  have hok : (Query.Selection.new w [pair]).toOption.map (fun sel =>
      (sel.readTicksFrom ⟨0, 0⟩ (bitReader.source bitSchedule) none 9 collect []).2.2.1.map
        fun seen => (seen.1, seen.2.map Query.Slot.current)) = some
          [(1, [some (.bits (ascii "0")), some (.bits (ascii "00"))]),
            (2, [some (.bits (ascii "x")), some (.bits (ascii "xx"))])] := by decide +kernel
  obtain ⟨sel, hsel, hseen⟩ := Option.map_eq_some_iff.1 hok
  have hnew : Query.Selection.new w [pair] = .ok sel := by
    cases hresult : Query.Selection.new w [pair] with
    | error e => rw [hresult] at hsel; cases hsel
    | ok sel' => rw [hresult] at hsel; cases hsel; rfl
  have hopens : (⟨0, [(ascii "!", 0)], [], [.bits 1]⟩ : Vcd.Header).reader (fun _ => none)
      (ascii "#1\nb10 !\n#2\nbx !\n") |>.Opens ⟨some ⟨1, 2⟩, [], [.bits 1]⟩ bitReader :=
    .serial (by decide +kernel) rfl
  obtain ⟨ghw, haccepted, hencodings⟩ := bitWire_accepted
  let env : Ghw.ReadEnv := ⟨true, none, fun _ => true, Ghw.Assembly.byId, Ghw.Assembly.byId_sorts⟩
  have hsource : ghw.IsSource env (ghw.source env) := haccepted.isSource
  have hfile : FileSource [.bits 1] (ghw.source env) := by
    rw [← hencodings]
    exact .ghw haccepted hsource
  have hu32 : ∀ width, Encoding.bits width ∈ [Encoding.bits 1] → width < 2 ^ 32 := by simp
  have hreached : sel.ReachedIn ⟨0, 0⟩ (FileSource [.bits 1]) w [pair] := .new hnew
  obtain ⟨-, hfitted, hprojects, hslots⟩ := accepted_widths hu32 7 [[bit, bit]]
  have hall := hslots (.read none 9 collect [] (.schedule hopens bitSchedule) hreached) _ hfile
    none 9 collect (fun _ => True) [] (fun _ _ _ _ _ => trivial) trivial
  have hvalid : w.Valid high := rfl
  have hpair : Query.SizedTo high.baseEncoding (.bits (ascii "x0")) := fun width hwidth => by
    cases hwidth
    exact ⟨_, rfl, rfl⟩
  exact ⟨sel, _, hnew, hfile, rfl, hseen, hall.1,
    hfitted hopens bitSchedule.system [bit] 9 none gather [],
    ((hprojects high hvalid).2 _ hpair).1⟩

end Ondas
