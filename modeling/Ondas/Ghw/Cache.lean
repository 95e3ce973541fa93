import Mathlib.Logic.Relation
import Ondas.Ghw.Identity
import Ondas.Ghw.Index
import Ondas.Ghw.Mapper
import Ondas.Query.Composition

/-!
# The cache of validated sources

Opening a GHW file parses it, and one parsed source stays parked for the next open of the same
bytes. `Reader::open` and `Reader::metadata` run concurrently over one slot, so an open is a
sequence of turns (`Turn`) between which any other open may take its own: it looks at the parked
identity, measures and scans its input, takes the parked source if it is still the one it scanned
for, and else parses.

The parser is a parameter, a function of the content, and what it says about its input is a proof of
the content (`Proves`), as a scan is (`Scans`). A digest belongs to one content only. Then every
reachable state is sound (`World.Sound`): what is parked, and what any open was given, is what a
parse of its own content finds.
-/

namespace Ondas.Ghw.Cache

open Identity

/-! ## Parsed sources -/

/-- `CACHE_BYTES`. -/
def cacheBytes : Nat := 1024 * 1024 * 1024

/-- `Purpose`. -/
inductive Purpose where
  | waveform
  | metadata
  deriving DecidableEq, Repr

/-- What a parse finds in a content. -/
structure Parsed where
  types : Types
  declarations : Declarations
  bodyStart : Nat
  version : UInt8
  bigEndian : Bool
  timeSpan : Option TimeSpan

/-- `Hierarchy`: shared declarations, and the source that handles are checked against. -/
structure Hierarchy where
  source : Nat
  declarations : Declarations

/-- `Hierarchy::reopened`, with the source that `next_source` gives. -/
def Hierarchy.reopened (hierarchy : Hierarchy) (source : Nat) : Hierarchy :=
    { hierarchy with source }

/-- `Validated`. The number of bytes that are retained depends on what was reserved. -/
structure Validated (D : Type) extends Parsed where
  identity : Option (ContentIdentity D)
  hierarchy : Hierarchy
  index : Option Index
  retainedBytes : Nat

/-- What `open_with` returns: the wire and the validated source of the reader, the hierarchy and the
metadata. -/
structure Opened (D : Type) where
  wireLen : Nat
  version : UInt8
  bigEndian : Bool
  validated : Validated D
  hierarchy : Hierarchy
  metadata : Metadata

/-- The metadata of a GHW source. -/
def metadataOf (sourceName : String) (timeSpan : Option TimeSpan) : Metadata :=
  ⟨sourceName, none, timeSpan, none, none, []⟩

/-! ## Opens -/

/-- Where an open is in `open_with` and `parse`. -/
inductive Phase (D : Type) where
  | looking
  | measuring (parked : ContentIdentity D)
  | scanning (parked : ContentIdentity D)
  | taking (parked : ContentIdentity D)
  | wiring (parked : ContentIdentity D) (validated : Validated D)
  | clearing (opened : Opened D)
  | parsing
  | settling (opened : Opened D)
  | done (result : Except Error (Opened D))

/-- A call of `Reader::open` or `Reader::metadata` on an input with a content. -/
structure Open (D : Type) where
  content : List UInt8
  sourceName : String
  purpose : Purpose
  phase : Phase D

/-- What all opens share: the slot of the cache and the next source. -/
structure Shared (D : Type) where
  slot : Option (Validated D)
  nextSource : Nat

section
variable {D : Type} [DecidableEq D]

/-- `Cache::parked_identity`. -/
def Shared.parkedIdentity (s : Shared D) : Option (ContentIdentity D) :=
    s.slot.bind Validated.identity

/-- `Cache::take_matching`. -/
def Shared.takeMatching (identity : ContentIdentity D) (s : Shared D) : Option (Validated D) :=
  s.slot.filter fun validated => decide (validated.identity = some identity)

/-- `Cache::park`. -/
def Shared.park (candidate : Validated D) (s : Shared D) : Shared D :=
  if cacheBytes < candidate.retainedBytes then s else { s with slot := some candidate }

/-- `Cache::clear`. -/
def Shared.clear (s : Shared D) : Shared D := { s with slot := none }

/-- `next_source` was called. -/
def Shared.called (s : Shared D) : Shared D := { s with nextSource := s.nextSource + 1 }

/-- The end of `parse`: a source with a proof is parked, and a request for metadata leaves none. -/
def Shared.settle (purpose : Purpose) (validated : Validated D) (s : Shared D) : Shared D :=
  if validated.identity.isSome && purpose == .waveform then s.park validated
  else if purpose == .metadata then s.clear
  else s

/-- The open in another phase. -/
def Open.at (o : Open D) (phase : Phase D) : Open D := { o with phase }

/-- What `open_with` returns when it reuses a parked source. -/
def Open.reuse (o : Open D) (validated : Validated D) (source : Nat) : Opened D where
  wireLen := o.content.length
  version := validated.version
  bigEndian := validated.bigEndian
  validated
  hierarchy := validated.hierarchy.reopened source
  metadata := metadataOf o.sourceName validated.timeSpan

/-- What `parse` returns. -/
def Open.fresh (o : Open D) (found : Parsed) (proven : Option (ContentIdentity D))
    (index : Option Index) (retainedBytes source : Nat) : Opened D where
  wireLen := o.content.length
  version := found.version
  bigEndian := found.bigEndian
  validated := {
    found with identity := proven, hierarchy := ⟨source, found.declarations⟩, index, retainedBytes }
  hierarchy := ⟨source, found.declarations⟩
  metadata := metadataOf o.sourceName found.timeSpan

end

/-! ## Turns -/

section
variable {H D : Type} [DecidableEq D] (parse : List UInt8 → Except Error Parsed)
    (hasher : Hasher H D)

/-- What some scan of a content finds. -/
def Scans (content : List UInt8) (current : ContentIdentity D) : Prop :=
  ∃ (σ : Type) (input : Input σ) (serves : Serves input content) (turns : Nat) (s s' : σ),
    serves.position s = 0 ∧ scan input hasher turns s = some (.ok current, s')

/-- What `finish` gives after some calls on a watched input with a content. -/
def Proves (content : List UInt8) (proven : Option (ContentIdentity D)) : Prop :=
  ∃ (σ : Type) (input : Input σ) (serves : Serves input content) (s : σ) (calls : List Call)
    (i : Nat),
    Allowed input hasher serves calls ⟨s, State.new hasher⟩ ∧
      calls[i]? = some (.finish content.length) ∧
      (Watched.calls input hasher calls ⟨s, State.new hasher⟩)[i]? = some proven

/-- The turns of an open. The input may fail whenever it is used: a failing scan is a miss, and any
other failure ends the open. A parse that fails may have called for a source already. -/
inductive Turn (s : Shared D) (o : Open D) : Shared D → Open D → Prop
  | look : o.phase = .looking →
      Turn s o s (o.at (match s.parkedIdentity with
        | some parked => .measuring parked
        | none => .parsing))
  | unmeasured {parked : ContentIdentity D} (e : Error) : o.phase = .measuring parked →
      Turn s o s (o.at (.done (.error e)))
  | measure {parked : ContentIdentity D} : o.phase = .measuring parked →
      Turn s o s (o.at (if o.content.length = parked.length then .scanning parked else .parsing))
  | unscanned {parked : ContentIdentity D} : o.phase = .scanning parked → Turn s o s (o.at .parsing)
  | scan {parked current : ContentIdentity D} : o.phase = .scanning parked →
      Scans hasher o.content current →
      Turn s o s (o.at (if current = parked then .taking parked else .parsing))
  | take {parked : ContentIdentity D} : o.phase = .taking parked →
      Turn s o s (o.at (match s.takeMatching parked with
        | some validated => .wiring parked validated
        | none => .parsing))
  | unwired {parked : ContentIdentity D} {validated : Validated D} (e : Error) :
      o.phase = .wiring parked validated → Turn s o s (o.at (.done (.error e)))
  | changed {parked : ContentIdentity D} {validated : Validated D} :
      o.phase = .wiring parked validated → o.content.length ≠ parked.length →
      Turn s o s (o.at .parsing)
  | wire {parked : ContentIdentity D} {validated : Validated D} :
      o.phase = .wiring parked validated → o.content.length = parked.length →
      Turn s o s.called
        (o.at (if o.purpose = .metadata then .clearing (o.reuse validated s.nextSource)
        else .done (.ok (o.reuse validated s.nextSource))))
  | clear {opened : Opened D} : o.phase = .clearing opened →
      Turn s o s.clear (o.at (.done (.ok opened)))
  | refused (e : Error) (called : Bool) : o.phase = .parsing →
      Turn s o (if called then s.called else s) (o.at (.done (.error e)))
  | parsed {found : Parsed} {proven : Option (ContentIdentity D)} (index : Option Index)
      (retainedBytes : Nat) : o.phase = .parsing → parse o.content = .ok found →
      Proves hasher o.content proven →
      Turn s o s.called (o.at (.settling (o.fresh found proven index retainedBytes s.nextSource)))
  | settle {opened : Opened D} : o.phase = .settling opened →
      Turn s o (s.settle o.purpose opened.validated) (o.at (.done (.ok opened)))

/-- All opens so far, and what they share. -/
structure World (D : Type) where
  shared : Shared D
  opens : List (Open D)

/-- An empty cache. -/
def World.start (nextSource : Nat) : World D := ⟨⟨none, nextSource⟩, []⟩

/-- One more open. -/
def World.begin (w : World D) (content : List UInt8) (sourceName : String) (purpose : Purpose) :
    World D :=
  { w with opens := w.opens ++ [⟨content, sourceName, purpose, .looking⟩] }

/-- A turn of any open, or a source of another hierarchy. -/
inductive Advances : World D → World D → Prop
  | turn {w : World D} {i : Nat} {o o' : Open D} {s' : Shared D} : w.opens[i]? = some o →
      Turn parse hasher w.shared o s' o' → Advances w ⟨s', w.opens.set i o'⟩
  | elsewhere {w : World D} : Advances w { w with shared := w.shared.called }

/-- A step: an open begins, with a length of 64 bits, or goes on. -/
inductive Step : World D → World D → Prop
  | begin {w : World D} (content : List UInt8) (sourceName : String) (purpose : Purpose) :
      content.length < 2 ^ 64 → Step w (w.begin content sourceName purpose)
  | run {w w' : World D} : Advances parse hasher w w' → Step w w'

end

/-! ## Proofs and scans -/

section
variable {H D : Type} {hasher : Hasher H D} {content content' : List UInt8}
  {found : ContentIdentity D}

/-- The identity of a content. -/
def identityOf (hasher : Hasher H D) (content : List UInt8) : ContentIdentity D :=
  ⟨content.length, hasher.digest [content]⟩

/-- A digest belongs to one content. -/
def CollisionFree (hasher : Hasher H D) : Prop :=
  ∀ content content', identityOf hasher content = identityOf hasher content' → content = content'

/-- The identity that a proof gives is that of the content. -/
theorem Proves.identity (hstreams : hasher.Streams) (h : Proves hasher content (some found)) :
    found = identityOf hasher content := by
  obtain ⟨σ, input, serves, s, calls, i, hallowed, hcall, hproof⟩ := h
  obtain ⟨-, ⟨pieces, hpieces, rfl⟩, -⟩ :=
    calls_proof calls (Nat.two_pow_pos 64) (fun _ => Tracks.new s) hallowed hcall hproof
  rw [identityOf, hstreams pieces, hpieces]

/-- So is the identity that a scan gives. -/
theorem Scans.identity (hstreams : hasher.Streams) (hsize : content.length < 2 ^ 64)
    (h : Scans hasher content found) : found = identityOf hasher content := by
  obtain ⟨σ, input, serves, turns, s, s', hposition, hscan⟩ := h
  obtain ⟨pieces, hpieces, rfl⟩ := scan_covers hsize hposition hscan
  rw [identityOf, hstreams pieces, hpieces]

end

/-! ## Sound states -/

section
variable {H D : Type} {parse : List UInt8 → Except Error Parsed} {hasher : Hasher H D}
  {s s' : Shared D} {o o' : Open D} {w w' : World D}

/-- An open of a content returned what a parse of it finds, under its own name. -/
structure Yields (parse : List UInt8 → Except Error Parsed) (content : List UInt8)
    (sourceName : String) (opened : Opened D) : Prop where
  parsed : parse content = .ok opened.validated.toParsed
  wireLen : opened.wireLen = content.length
  version : opened.version = opened.validated.version
  bigEndian : opened.bigEndian = opened.validated.bigEndian
  declarations : opened.hierarchy.declarations = opened.validated.declarations
  metadata : opened.metadata = metadataOf sourceName opened.validated.timeSpan

/-- A validated source of a content, whose declarations are those that were parsed. -/
structure Validated.Of (parse : List UInt8 → Except Error Parsed) (hasher : Hasher H D)
    (content : List UInt8) (v : Validated D) : Prop where
  parsed : parse content = .ok v.toParsed
  identity : ∀ identity, v.identity = some identity → identity = identityOf hasher content
  declarations : v.hierarchy.declarations = v.declarations

/-- What is parked has a proof of some content, and fits the bound. -/
structure Shared.Sound (parse : List UInt8 → Except Error Parsed) (hasher : Hasher H D)
    (s : Shared D) : Prop where
  slot : ∀ v, s.slot = some v → (∃ content, v.Of parse hasher content) ∧ v.identity.isSome ∧
    v.retainedBytes ≤ cacheBytes

/-- What an open of a content relies on in a phase. -/
def Phase.Holds (parse : List UInt8 → Except Error Parsed) (hasher : Hasher H D)
    (content : List UInt8) (sourceName : String) : Phase D → Prop
  | .taking parked => parked = identityOf hasher content
  | .wiring _ validated => validated.Of parse hasher content
  | .settling opened =>
    Yields parse content sourceName opened ∧ opened.validated.Of parse hasher content
  | .clearing opened | .done (.ok opened) => Yields parse content sourceName opened
  | _ => True

/-- An open on a content of a length of 64 bits. -/
structure Open.Sound (parse : List UInt8 → Except Error Parsed) (hasher : Hasher H D) (o : Open D) :
    Prop where
  length : o.content.length < 2 ^ 64
  holds : o.phase.Holds parse hasher o.content o.sourceName

theorem Shared.Sound.called (h : s.Sound parse hasher) : s.called.Sound parse hasher := ⟨h.slot⟩

theorem Shared.Sound.clear (s : Shared D) : s.clear.Sound parse hasher := ⟨nofun⟩

/-- A source with a proof can be parked. -/
theorem Shared.Sound.settle (h : s.Sound parse hasher) {v : Validated D} {content : List UInt8}
    (hv : v.Of parse hasher content) (purpose : Purpose) :
    (s.settle purpose v).Sound parse hasher := by
  unfold Shared.settle
  split
  · next hproven =>
    unfold Shared.park
    split
    · exact h
    · next hfits =>
      refine ⟨fun v' hv' => ?_⟩
      obtain rfl := Option.some.inj hv'
      exact ⟨⟨content, hv⟩, (Bool.and_eq_true_iff.1 hproven).1, Nat.not_lt.1 hfits⟩
  · split
    · exact .clear s
    · exact h

/-- What is taken for the identity of a content was parsed from it. -/
theorem Shared.Sound.takeMatching [DecidableEq D] (hcollisions : CollisionFree hasher)
    (h : s.Sound parse hasher) {content : List UInt8} {v : Validated D}
    (htake : s.takeMatching (identityOf hasher content) = some v) : v.Of parse hasher content := by
  obtain ⟨hslot, hmatch⟩ := Option.filter_eq_some_iff.1 htake
  obtain ⟨⟨content', hv⟩, -⟩ := h.slot v hslot
  obtain rfl := hcollisions _ _ (hv.identity _ (of_decide_eq_true hmatch))
  exact hv

/-- A reused source yields what was parsed from the content. -/
theorem Validated.Of.reuse {v : Validated D} (h : v.Of parse hasher o.content) (source : Nat) :
    Yields parse o.content o.sourceName (o.reuse v source) :=
  ⟨h.parsed, rfl, rfl, rfl, h.declarations, rfl⟩

/-- **A turn is sound.** What is parked stays proven, and what an open relies on stays true,
whatever the other opens did since its last turn. -/
theorem Turn.sound [DecidableEq D] (hstreams : hasher.Streams) (hcollisions : CollisionFree hasher)
    (hs : s.Sound parse hasher) (ho : o.Sound parse hasher) (h : Turn parse hasher s o s' o') :
    s'.Sound parse hasher ∧ o'.Sound parse hasher := by
  have hheld := ho.holds
  cases h with
  | look hphase =>
    refine ⟨hs, ho.length, ?_⟩
    show Phase.Holds _ _ _ _ (match s.parkedIdentity with
      | some parked => .measuring parked
      | none => .parsing)
    split <;> trivial
  | unmeasured e hphase => exact ⟨hs, ho.length, trivial⟩
  | @measure parked hphase =>
    refine ⟨hs, ho.length, ?_⟩
    show Phase.Holds _ _ _ _ (if o.content.length = parked.length then .scanning parked
      else .parsing)
    split <;> trivial
  | unscanned hphase => exact ⟨hs, ho.length, trivial⟩
  | @scan parked current hphase hscans =>
    refine ⟨hs, ho.length, ?_⟩
    show Phase.Holds _ _ _ _ (if current = parked then .taking parked else .parsing)
    split
    · next heq => exact heq ▸ hscans.identity hstreams ho.length
    · trivial
  | @take parked hphase =>
    rw [hphase] at hheld
    refine ⟨hs, ho.length, ?_⟩
    show Phase.Holds _ _ _ _ (match s.takeMatching parked with
      | some validated => .wiring parked validated
      | none => .parsing)
    split
    · next v htake =>
      rw [show parked = identityOf hasher o.content from hheld] at htake
      exact hs.takeMatching hcollisions htake
    · trivial
  | unwired e hphase => exact ⟨hs, ho.length, trivial⟩
  | changed hphase hne => exact ⟨hs, ho.length, trivial⟩
  | @wire parked validated hphase heq =>
    rw [hphase] at hheld
    have hyields := Validated.Of.reuse hheld s.nextSource
    refine ⟨hs.called, ho.length, ?_⟩
    show Phase.Holds _ _ _ _ (if o.purpose = .metadata then .clearing
      (o.reuse validated s.nextSource)
      else .done (.ok (o.reuse validated s.nextSource)))
    split <;> exact hyields
  | clear hphase =>
    rw [hphase] at hheld
    exact ⟨.clear s, ho.length, hheld⟩
  | refused e called hphase =>
    refine ⟨?_, ho.length, trivial⟩
    split
    · exact hs.called
    · exact hs
  | @parsed found proven index retainedBytes hphase hparse hproves =>
    refine ⟨hs.called, ho.length, ⟨hparse, rfl, rfl, rfl, rfl, rfl⟩, hparse, ?_, rfl⟩
    rintro identity rfl
    exact hproves.identity hstreams
  | settle hphase =>
    rw [hphase] at hheld
    exact ⟨hs.settle hheld.2 o.purpose, ho.length, hheld.1⟩

/-! ## Sources -/

/-- The source of the hierarchy that a phase has. -/
def Phase.source? : Phase D → Option Nat
  | .settling opened | .clearing opened | .done (.ok opened) => some opened.hierarchy.source
  | _ => none

/-- Settling a request hands out no source number. -/
theorem Shared.settle_nextSource (purpose : Purpose) (v : Validated D) :
    (s.settle purpose v).nextSource = s.nextSource := by
  unfold Shared.settle
  split
  · unfold Shared.park
    split <;> rfl
  · split <;> rfl

/-- After a turn an open has the source it had, or the next one. -/
theorem Turn.source [DecidableEq D] (h : Turn parse hasher s o s' o') :
    s.nextSource ≤ s'.nextSource ∧
    ∀ source, o'.phase.source? = some source →
      o.phase.source? = some source ∨ source = s.nextSource ∧ s.nextSource < s'.nextSource := by
  have hnone : ∀ phase : Phase D, phase.source? = none → ∀ source,
      (o.at phase).phase.source? = some source → o.phase.source? = some source ∨
        source = s.nextSource ∧ s.nextSource < s.nextSource := by
    intro phase hphase source hsource
    cases hphase.symm.trans hsource
  have hsame : ∀ (opened : Opened D) (source : Nat),
      o.phase.source? = some opened.hierarchy.source →
      (o.at (.done (.ok opened))).phase.source? = some source → o.phase.source? = some source :=
    fun opened source hold hsource => hold.trans hsource
  cases h with
  | look hphase => exact ⟨Nat.le_refl _, hnone _ (by split <;> rfl)⟩
  | unmeasured e hphase => exact ⟨Nat.le_refl _, hnone _ rfl⟩
  | measure hphase => exact ⟨Nat.le_refl _, hnone _ (by split <;> rfl)⟩
  | unscanned hphase => exact ⟨Nat.le_refl _, hnone _ rfl⟩
  | scan hphase hscans => exact ⟨Nat.le_refl _, hnone _ (by split <;> rfl)⟩
  | take hphase => exact ⟨Nat.le_refl _, hnone _ (by split <;> rfl)⟩
  | unwired e hphase => exact ⟨Nat.le_refl _, hnone _ rfl⟩
  | changed hphase hne => exact ⟨Nat.le_refl _, hnone _ rfl⟩
  | @wire parked validated hphase heq =>
    refine ⟨Nat.le_succ _, fun source hsource => .inr ⟨?_, Nat.lt_succ_self _⟩⟩
    have hgiven : (if o.purpose = .metadata then Phase.clearing (o.reuse validated s.nextSource)
        else .done (.ok (o.reuse validated s.nextSource))).source? = some s.nextSource := by
      split <;> rfl
    exact (Option.some.inj (hgiven.symm.trans hsource)).symm
  | clear hphase =>
    exact ⟨Nat.le_refl _, fun source hsource => .inl (hsame _ source (by rw [hphase]; rfl) hsource)⟩
  | refused e called hphase =>
    refine ⟨?_, fun source hsource => by cases hsource⟩
    split
    · exact Nat.le_succ _
    · exact Nat.le_refl _
  | parsed index retainedBytes hphase hparse hproves =>
    exact ⟨Nat.le_succ _, fun source hsource => .inr
      ⟨(Option.some.inj hsource).symm, Nat.lt_succ_self _⟩⟩
  | settle hphase =>
    exact ⟨Nat.le_of_eq (Shared.settle_nextSource _ _).symm,
      fun source hsource => .inl (hsame _ source (by rw [hphase]; rfl) hsource)⟩

/-! ## Worlds -/

/-- What holds in every state: all opens are sound, and no two have one source. -/
structure World.Sound (parse : List UInt8 → Except Error Parsed) (hasher : Hasher H D)
    (w : World D) :
    Prop where
  shared : w.shared.Sound parse hasher
  opens : ∀ o ∈ w.opens, o.Sound parse hasher
  below : ∀ o ∈ w.opens, ∀ source, o.phase.source? = some source → source < w.shared.nextSource
  distinct : ∀ (i j : Nat) (o o' : Open D) (source : Nat), w.opens[i]? = some o →
    w.opens[j]? = some o' → o.phase.source? = some source → o'.phase.source? = some source → i = j

/-- Nothing is cached at the start, so nothing is wrong. -/
theorem World.start_sound (nextSource : Nat) :
    (World.start nextSource : World D).Sound parse hasher where
  shared := ⟨fun _ hslot => by cases hslot⟩
  opens _ ho := absurd ho List.not_mem_nil
  below _ ho := absurd ho List.not_mem_nil
  distinct _ _ _ _ _ ho := by cases ho

/-- An open that begins has no source. -/
theorem World.Sound.begin (h : w.Sound parse hasher) {content : List UInt8}
    (hlength : content.length < 2 ^ 64) (sourceName : String) (purpose : Purpose) :
    (w.begin content sourceName purpose).Sound parse hasher := by
  have hold : ∀ (i : Nat) (o : Open D) (source : Nat),
      (w.begin content sourceName purpose).opens[i]? = some o → o.phase.source? = some source →
        w.opens[i]? = some o := by
    intro i o source ho hsource
    rcases Nat.lt_trichotomy i w.opens.length with hlt | rfl | hgt
    · rwa [World.begin, List.getElem?_append_left hlt] at ho
    · rw [World.begin, List.getElem?_append_right (Nat.le_refl _), Nat.sub_self] at ho
      obtain rfl := Option.some.inj ho
      cases hsource
    · rw [World.begin, List.getElem?_eq_none (by
        rw [List.length_append, List.length_singleton]
        omega)] at ho
      cases ho
  refine ⟨h.shared, fun o ho => ?_, fun o ho source hsource => ?_,
    fun i j o o' source ho ho' hsource hsource' => ?_⟩
  · rcases List.mem_append.1 ho with ho | ho
    · exact h.opens o ho
    · obtain rfl := List.mem_singleton.1 ho
      exact ⟨hlength, trivial⟩
  · obtain ⟨i, hi⟩ := List.getElem?_of_mem ho
    exact h.below o (List.mem_of_getElem? (hold i o source hi hsource)) source hsource
  · exact h.distinct i j o o' source (hold i o source ho hsource) (hold j o' source ho' hsource')
      hsource hsource'

/-- Any turn of any open keeps the state sound. -/
theorem World.Sound.advances [DecidableEq D] (hstreams : hasher.Streams)
    (hcollisions : CollisionFree hasher)
    (h : w.Sound parse hasher) (hadvances : Advances parse hasher w w') :
    w'.Sound parse hasher := by
  cases hadvances with
  | elsewhere =>
    exact ⟨h.shared.called, h.opens,
      fun o ho source hsource => Nat.lt_succ_of_lt (h.below o ho source hsource), h.distinct⟩
  | @turn i o o' s' ho hturn =>
    have hmem := List.mem_of_getElem? ho
    obtain ⟨hs, ho'⟩ := hturn.sound hstreams hcollisions h.shared (h.opens o hmem)
    obtain ⟨hle, hsource⟩ := hturn.source
    -- The open of the turn has its old source, or one that no open had.
    have hown : ∀ source, o'.phase.source? = some source → source < s'.nextSource ∧
        ∀ j o'', w.opens[j]? = some o'' → o''.phase.source? = some source → j = i := by
      intro source hgiven
      rcases hsource source hgiven with hold | ⟨rfl, hlt⟩
      · exact ⟨Nat.lt_of_lt_of_le (h.below o hmem source hold) hle,
          fun j o'' hj hother => h.distinct j i o'' o source hj ho hother hold⟩
      · refine ⟨hlt, fun j o'' hj hother => ?_⟩
        exact absurd (h.below o'' (List.mem_of_getElem? hj) _ hother) (Nat.lt_irrefl _)
    have hget : ∀ (j : Nat) (o'' : Open D), (w.opens.set i o')[j]? = some o'' →
        j = i ∧ o'' = o' ∨ w.opens[j]? = some o'' := by
      intro j o'' hj
      by_cases hij : i = j
      · subst hij
        rw [List.getElem?_set_self (List.getElem?_eq_some_iff.1 ho).1] at hj
        exact .inl ⟨rfl, (Option.some.inj hj).symm⟩
      · rw [List.getElem?_set_ne hij] at hj
        exact .inr hj
    refine ⟨hs, fun o'' hmem' => ?_, fun o'' hmem' source hgiven => ?_,
      fun j k o₁ o₂ source h₁ h₂ hs₁ hs₂ => ?_⟩
    · rcases List.mem_or_eq_of_mem_set hmem' with hmem' | rfl
      · exact h.opens o'' hmem'
      · exact ho'
    · rcases List.mem_or_eq_of_mem_set hmem' with hmem' | rfl
      · exact Nat.lt_of_lt_of_le (h.below o'' hmem' source hgiven) hle
      · exact (hown source hgiven).1
    · rcases hget j o₁ h₁ with ⟨rfl, rfl⟩ | h₁'
      · rcases hget k o₂ h₂ with ⟨rfl, rfl⟩ | h₂'
        · rfl
        · exact ((hown source hs₁).2 k o₂ h₂' hs₂).symm
      · rcases hget k o₂ h₂ with ⟨rfl, rfl⟩ | h₂'
        · exact (hown source hs₂).2 j o₁ h₁' hs₁
        · exact h.distinct j k o₁ o₂ source h₁' h₂' hs₁ hs₂

/-- Every state that is reached is sound. -/
theorem World.Sound.reached [DecidableEq D] (hstreams : hasher.Streams)
    (hcollisions : CollisionFree hasher)
    {nextSource : Nat} (h : Relation.ReflTransGen (Step parse hasher) (World.start nextSource) w) :
    w.Sound parse hasher := by
  induction h with
  | refl => exact World.start_sound nextSource
  | tail _ hstep ih =>
    cases hstep with
    | begin content sourceName purpose hlength => exact ih.begin hlength sourceName purpose
    | run hadvances => exact ih.advances hstreams hcollisions hadvances

/-! ## Requests for metadata -/

/-- A request for metadata that has returned left nothing parked. -/
def Released (i : Nat) (w : World D) : Prop :=
  (∀ (j : Nat) (o : Open D), w.opens[j]? = some o → j ≠ i → ∃ result, o.phase = .done result) ∧
    ∀ o, w.opens[i]? = some o → o.purpose = .metadata ∧
      ∀ opened, o.phase = .done (.ok opened) → w.shared.slot = none

/-- An open that has returned takes no turn. -/
theorem Turn.not_done [DecidableEq D] (h : Turn parse hasher s o s' o')
    {result : Except Error (Opened D)} :
    o.phase ≠ .done result := by
  intro hdone
  cases h with
  | look hphase | unmeasured _ hphase | measure hphase | unscanned hphase | scan hphase _
  | take hphase | unwired _ hphase | changed hphase _ | wire hphase _ | clear hphase
  | refused _ _ hphase | parsed _ _ hphase _ _ | settle hphase =>
    exact absurd (hphase.symm.trans hdone) nofun

/-- What an open returned. -/
def Phase.opened? : Phase D → Option (Opened D)
  | .done (.ok opened) => some opened
  | _ => none

/-- The last turn of a request for metadata clears the slot. -/
theorem Turn.released [DecidableEq D] (h : Turn parse hasher s o s' o')
    (hpurpose : o.purpose = .metadata) :
    o'.purpose = .metadata ∧ ∀ opened, o'.phase = .done (.ok opened) → s'.slot = none := by
  have hrunning : ∀ (phase : Phase D) (s' : Shared D), phase.opened? = none →
      ∀ opened, (o.at phase).phase = .done (.ok opened) → s'.slot = none := by
    intro phase s' hnone opened hdone
    have hphase : phase = .done (.ok opened) := hdone
    rw [hphase] at hnone
    cases hnone
  cases h with
  | look hphase => exact ⟨hpurpose, hrunning _ _ (by split <;> rfl)⟩
  | unmeasured e hphase => exact ⟨hpurpose, hrunning _ _ rfl⟩
  | measure hphase => exact ⟨hpurpose, hrunning _ _ (by split <;> rfl)⟩
  | unscanned hphase => exact ⟨hpurpose, hrunning _ _ rfl⟩
  | scan hphase hscans => exact ⟨hpurpose, hrunning _ _ (by split <;> rfl)⟩
  | take hphase => exact ⟨hpurpose, hrunning _ _ (by split <;> rfl)⟩
  | unwired e hphase => exact ⟨hpurpose, hrunning _ _ rfl⟩
  | changed hphase hne => exact ⟨hpurpose, hrunning _ _ rfl⟩
  | wire hphase heq => exact ⟨hpurpose, hrunning _ _ (by rw [if_pos hpurpose]; rfl)⟩
  | clear hphase => exact ⟨hpurpose, fun opened hdone => rfl⟩
  | refused e called hphase => exact ⟨hpurpose, hrunning _ _ rfl⟩
  | parsed index retainedBytes hphase hparse hproves => exact ⟨hpurpose, hrunning _ _ rfl⟩
  | settle hphase =>
    refine ⟨hpurpose, fun opened hdone => ?_⟩
    rw [hpurpose, Shared.settle, if_neg (by rw [Bool.and_eq_true]; exact fun h => by cases h.2)]
    rfl

/-- While a request for metadata runs alone, its return leaves nothing parked. -/
theorem Released.advances [DecidableEq D] {i : Nat} (h : Released i w)
    (hadvances : Advances parse hasher w w') :
    Released i w' := by
  obtain ⟨hothers, hown⟩ := h
  cases hadvances with
  | elsewhere => exact ⟨hothers, hown⟩
  | @turn j o o' s' ho hturn =>
    have hij : j = i := by
      by_contra hne
      obtain ⟨result, hdone⟩ := hothers j o ho hne
      exact hturn.not_done hdone
    subst hij
    refine ⟨fun k o'' hk hne => ?_, fun o'' hj => ?_⟩
    · have hk' : (w.opens.set j o')[k]? = some o'' := hk
      rw [List.getElem?_set_ne hne.symm] at hk'
      exact hothers k o'' hk' hne
    · have hj' : (w.opens.set j o')[j]? = some o'' := hj
      rw [List.getElem?_set_self (List.getElem?_eq_some_iff.1 ho).1] at hj'
      obtain rfl := Option.some.inj hj'
      exact hturn.released (hown o ho).1

/-- A request for metadata that begins while no other open runs. -/
theorem Released.begin (hdone : ∀ o ∈ w.opens, ∃ result, o.phase = .done result)
    (content : List UInt8) (sourceName : String) :
    Released w.opens.length (w.begin content sourceName .metadata) := by
  refine ⟨fun j o ho hne => ?_, fun o ho => ?_⟩
  · rcases List.mem_append.1 (List.mem_of_getElem? ho) with hmem | hmem
    · exact hdone o hmem
    · have hlt : j < w.opens.length := by
        have hlt := (List.getElem?_eq_some_iff.1 ho).1
        rw [World.begin, List.length_append, List.length_singleton] at hlt
        omega
      rw [World.begin, List.getElem?_append_left hlt] at ho
      exact hdone o (List.mem_of_getElem? ho)
  · rw [World.begin, List.getElem?_append_right (Nat.le_refl _), Nat.sub_self] at ho
    obtain rfl := Option.some.inj ho
    exact ⟨rfl, fun opened hdone => by cases hdone⟩

/-! ## Reuse -/

/-- A handle of one open is refused by the hierarchy of another. -/
theorem validate_foreign {a b : Opened D} (hne : a.hierarchy.source ≠ b.hierarchy.source)
    {signal : Signal} {encodings encodings' : List Encoding}
    {definitions definitions' : List Query.Definition}
    {k : Nat} (h : Query.validate a.hierarchy.source encodings definitions signal = .ok k) :
    Query.validate b.hierarchy.source encodings' definitions' signal =
      .error (.invalidSignal signal) := by
  have hsource := (Query.validateEncoding_ok h).2.1
  rw [Query.validate, Query.validateEncoding, if_neg]
  rw [Bool.and_eq_true, Bool.and_eq_true, beq_iff_eq]
  exact fun hvalid => hne (hsource.symm.trans hvalid.1.1)

/-- **A reused open cannot be told from a parse.** However the opens of any inputs take their turns,
each one that returned has what a parse of its own content finds, and its own name, so that a
content that is refused is never opened. No two opens have one source, and a handle of one is
refused by every other. What is parked has a proof and fits the bound. A request for metadata that
ran alone left nothing parked. -/
theorem reuse_sound [DecidableEq D] (hstreams : hasher.Streams) (hcollisions : CollisionFree hasher)
    {nextSource : Nat} (h : Relation.ReflTransGen (Step parse hasher) (World.start nextSource) w) :
    (∀ o ∈ w.opens, ∀ opened, o.phase = .done (.ok opened) →
      Yields parse o.content o.sourceName opened) ∧
    (∀ o ∈ w.opens, ∀ e, parse o.content = .error e → ∀ opened, o.phase ≠ .done (.ok opened)) ∧
    (∀ (i j : Nat) (o o' : Open D) (a b : Opened D), w.opens[i]? = some o → w.opens[j]? = some o' →
      i ≠ j → o.phase = .done (.ok a) → o'.phase = .done (.ok b) →
      a.hierarchy.source ≠ b.hierarchy.source ∧
        ∀ encodings encodings' definitions definitions' signal k,
          Query.validate a.hierarchy.source encodings definitions signal = .ok k →
          Query.validate b.hierarchy.source encodings' definitions' signal =
            .error (.invalidSignal signal)) ∧
    (∀ v, w.shared.slot = some v → v.identity.isSome ∧ v.retainedBytes ≤ cacheBytes) ∧
    ((∀ o ∈ w.opens, ∃ result, o.phase = .done result) → ∀ content sourceName w',
      Relation.ReflTransGen (Advances parse hasher) (w.begin content sourceName .metadata) w' →
      ∀ o opened, w'.opens[w.opens.length]? = some o → o.phase = .done (.ok opened) →
        w'.shared.slot = none) := by
  have hsound := World.Sound.reached hstreams hcollisions h
  have hyields : ∀ o ∈ w.opens, ∀ opened, o.phase = .done (.ok opened) →
      Yields parse o.content o.sourceName opened := by
    intro o ho opened hdone
    have hholds := (hsound.opens o ho).holds
    rwa [hdone] at hholds
  refine ⟨hyields, ?_, ?_, fun v hv => (hsound.shared.slot v hv).2, ?_⟩
  · intro o ho e hrefused opened hdone
    cases hrefused.symm.trans (hyields o ho opened hdone).parsed
  · intro i j o o' a b ho ho' hne hdone hdone'
    have hdiffer : a.hierarchy.source ≠ b.hierarchy.source := by
      intro heq
      refine hne (hsound.distinct i j o o' a.hierarchy.source ho ho' ?_ ?_)
      · rw [hdone]
        rfl
      · rw [hdone', heq]
        rfl
    exact ⟨hdiffer, fun _ _ _ _ _ _ hvalid => validate_foreign hdiffer hvalid⟩
  · intro hdone content sourceName w' hrun o opened ho hreturned
    have hreleased : ∀ w', Relation.ReflTransGen (Advances parse hasher)
        (w.begin content sourceName .metadata) w' → Released w.opens.length w' := by
      intro w' hrun
      induction hrun with
      | refl => exact .begin hdone content sourceName
      | tail _ hadvances ih => exact ih.advances hadvances
    exact ((hreleased w' hrun).2 o ho).2 opened hreturned

end

/-! ## A reused open -/

/-- What `parseSeven` finds. -/
def sevenFound : Parsed := ⟨⟨[], [], []⟩, ⟨[], [], [], [], []⟩, 0, 0, false, none⟩

/-- A parser that accepts one content. -/
def parseSeven (content : List UInt8) : Except Error Parsed :=
  if content = [7] then .ok sevenFound else .error (.io "refused")

/-- The identity of the content that is recorded is the content. -/
theorem recorder_collisionFree : CollisionFree recorder :=
    fun _ _ h => congrArg ContentIdentity.digest h

theorem seven_proves : Proves recorder [7] (some ⟨1, [7]⟩) :=
  ⟨Nat, cursor [7], cursorServes [7], 0, [.read 1, .finish 1], 1, ⟨nofun, nofun, trivial⟩, rfl, rfl⟩

theorem seven_scans : Scans recorder [7] ⟨1, [7]⟩ :=
  ⟨Nat, cursor [7], cursorServes [7], 2, 0, _, rfl, rfl⟩

/-- The second open of a content reuses what the first one parsed, under its own name. -/
theorem reuse_sound_seven : ∃ (w : World (List UInt8)) (o o' : Open (List UInt8))
    (a b : Opened (List UInt8)),
    Relation.ReflTransGen (Step parseSeven recorder) (World.start 1) w ∧ w.opens = [o, o'] ∧
      o.phase = .done (.ok a) ∧ o'.phase = .done (.ok b) ∧ b.validated = a.validated ∧
      Yields parseSeven [7] "second" b ∧ a.hierarchy.source ≠ b.hierarchy.source := by
  have first : Relation.ReflTransGen (Step parseSeven recorder) (World.start 1)
      ((World.start 1).begin [7] "first" .waveform) :=
      .tail .refl (.begin [7] "first" .waveform (by decide))
  have parsed := (first.tail (.run (.turn (i := 0) rfl (.look rfl)))).tail
    (.run (.turn (i := 0) rfl (.parsed none 0 rfl rfl seven_proves)))
  have parked := parsed.tail (.run (.turn (i := 0) rfl (.settle rfl)))
  have second := parked.tail (.begin [7] "second" .waveform (by decide))
  have measured := (second.tail (.run (.turn (i := 1) rfl (.look rfl)))).tail
    (.run (.turn (i := 1) rfl (.measure rfl)))
  have taken := (measured.tail (.run (.turn (i := 1) rfl (.scan rfl seven_scans)))).tail
    (.run (.turn (i := 1) rfl (.take rfl)))
  have reused := taken.tail (.run (.turn (i := 1) rfl (.wire rfl rfl)))
  obtain ⟨hyields, -, hdistinct, -, -⟩ := reuse_sound recorder_streams recorder_collisionFree reused
  exact ⟨_, _, _, _, _, reused, rfl, rfl, rfl, rfl, hyields _ (.tail _ (.head _)) _ rfl,
    (hdistinct 0 1 _ _ _ _ rfl rfl (by decide) rfl rfl).1⟩

end Ondas.Ghw.Cache
