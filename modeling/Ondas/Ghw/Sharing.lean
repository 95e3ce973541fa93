import Ondas.Ghw.Slots

/-!
# Shared recipes

The mapper gives a leaf the recipe of the first leaf with the same source IDs and encoding. That
leaf may be of another type: the type of the recipe, whether it is a vector and the marker of its
scalars are not compared. They choose the alphabet and the slot of a digit, so that they must not
make a difference (`sharing_sound`).

Source IDs that two leaves share are stored in one way with one number of literals. With the same
width this leaves two cases (`Recipe.Suits.update_core`): the markers are the same and so is the
slot, or both are of two literals and one digit, whose alphabets all are binary.
-/

namespace Ondas.Ghw

open Library Wire Ondas.Ghw.Types

/-! ## Buffers without their types -/

/-- A buffer without the attributes of its recipe that depend on the type. -/
def Buffer.core (b : Buffer) : Buffer := { b with wkt := 0, vector := false }

section
variable {t : Types} {active : Active} {recipe recipe' : Recipe} {storage storage' : Storage}
  {literals literals' : List Nat} {wkt wkt' position : Nat} {b b' : Buffer} {value : Scalar}
  {first : Bool}

/-- The rest of a buffer, apart from its type. -/
structure SameCore (b b' : Buffer) : Prop where
  index : b.index = b'.index
  digits : b.digits = b'.digits
  real : b.real = b'.real
  required : b.required = b'.required
  known : b.known = b'.known

/-- Two buffers have the same core when they agree on all that a notification shows. -/
theorem core_eq_iff : b.core = b'.core ↔ SameCore b b' := by
  unfold Buffer.core
  constructor
  · intro h
    injection h with hindex hdigits hreal hrequired hknown
    exact ⟨hindex, hdigits, hreal, hrequired, hknown⟩
  · rintro ⟨hindex, hdigits, hreal, hrequired, hknown⟩
    rw [hindex, hdigits, hreal, hrequired, hknown]

/-- Writing digits depends on the core only. -/
theorem setBits_core (h : b.core = b'.core) (bits : Nat) :
    (b.setBits bits).map Buffer.core = (b'.setBits bits).map Buffer.core := by
  obtain ⟨hindex, hdigits, hreal, hrequired, hknown⟩ := core_eq_iff.1 h
  unfold Buffer.setBits
  rw [hdigits]
  split
  · rfl
  · exact congrArg some (core_eq_iff.2 ⟨hindex, rfl, hreal, hrequired, hknown⟩)

/-- Buffers of the same marker write the same digit to the same slot. -/
theorem update_same (h : b.core = b'.core) (hwkt : b.wkt = b'.wkt)
    (hslot : (if b.vector then position else 0) = if b'.vector then position else 0) :
    (b.update position value false).map Buffer.core =
      (b'.update position value false).map Buffer.core := by
  obtain ⟨hindex, hdigits, hreal, hrequired, hknown⟩ := core_eq_iff.1 h
  unfold Buffer.update
  rw [if_neg Bool.false_ne_true, if_neg Bool.false_ne_true]
  cases value with
  | real bits => exact congrArg some (core_eq_iff.2 ⟨hindex, hdigits, rfl, hrequired, hknown⟩)
  | integer value => exact setBits_core h _
  | ordinal ordinal =>
    dsimp only
    rw [hwkt, hslot, hdigits]
    split
    · cases (Buffer.alphabet b'.wkt)[ordinal.toNat]? with
      | none => rfl
      | some digit =>
        dsimp only
        generalize (if b'.vector then position else 0) = slot
        split
        · exact congrArg some (core_eq_iff.2 ⟨hindex, rfl, hreal, hrequired, hknown⟩)
        · rfl
    · exact setBits_core h _

/-- With one digit, the alphabets of two literals are the binary digits. -/
theorem update_bit (hlength : b.digits.length = 1) (hwkt : b.wkt ≤ 2)
    (hslot : (if b.vector then position else 0) = 0) {ordinal : UInt8} (hlt : ordinal.toNat < 2) :
    b.update position (.ordinal ordinal) false =
      some { b with digits := [Buffer.bitDigit ordinal.toNat] } := by
  obtain ⟨digit, hdigits⟩ := List.length_eq_one_iff.1 hlength
  unfold Buffer.update
  rw [if_neg Bool.false_ne_true]
  dsimp only
  rw [hslot, hdigits]
  by_cases hzero : b.wkt = 0
  · rw [if_neg (not_not.2 hzero), Buffer.setBits, hdigits]
    rfl
  · have halphabet : Buffer.alphabet b.wkt = ascii "01" := if_neg (by omega)
    have hdigit : (ascii "01")[ordinal.toNat]? = some (Buffer.bitDigit ordinal.toNat) := by
      generalize ordinal.toNat = n at hlt
      have hn : n = 0 ∨ n = 1 := by omega
      rcases hn with rfl | rfl <;> decide
    rw [if_pos hzero, halphabet, hdigit]
    rfl

/-! ## Recipes that are shared -/

/-- Two recipes of one key. -/
structure Recipe.Alike (recipe recipe' : Recipe) : Prop where
  ids : recipe.ids = recipe'.ids
  encoding : recipe.encoding = recipe'.encoding

/-- What is left to differ between the types of recipes of one key. -/
inductive Agrees (recipe recipe' : Recipe) (literals : List Nat) (wkt wkt' : Nat) : Prop
  | same : wkt = wkt' → recipe.vector = recipe'.vector ∨ recipe.ids.length = 1 →
      Agrees recipe recipe' literals wkt wkt'
  | bit : wkt ≤ 2 → wkt' ≤ 2 → literals.length = 2 → recipe.ids.length = 1 →
      recipe.encoding = .bits 1 → Agrees recipe recipe' literals wkt wkt'

/-- A source ID of both recipes is stored in one way, with one number of literals. -/
theorem Recipe.Suits.same_storage (h : recipe.Suits t active storage literals wkt)
    (h' : recipe'.Suits t active storage' literals' wkt') (halike : recipe.Alike recipe')
    (hposition : position < recipe.ids.length) :
    storage = storage' ∧ literals.length = literals'.length := by
  have hid : recipe.ids[position] ∈ recipe.ids := List.getElem_mem _
  obtain ⟨type, hactive⟩ := h.listed _ hid
  obtain ⟨first, marker, hscalar, hlength⟩ := h.stored _ hid type hactive
  obtain ⟨second, marker', hscalar', hlength'⟩ := h'.stored _ (halike.ids ▸ hid) type hactive
  rw [hscalar] at hscalar'
  cases hscalar'
  exact ⟨rfl, hlength.symm.trans hlength'⟩

/-- A recipe without marker is one of a scalar. -/
theorem Recipe.Suits.unmarked (h : recipe.Suits t active storage literals 0) :
    recipe.ids.length = 1 ∧ recipe.encoding =
      (if storage == .f64 then .real else .bits (Mapper.width (storage, literals, 0))) := by
  rcases h.kind with ⟨-, hlength, hencoding⟩ | ⟨-, hwkt, -⟩
  · exact ⟨hlength, hencoding⟩
  · omega

/-- One source ID with a marker is one digit. -/
theorem Recipe.Suits.one_digit (h : recipe.Suits t active storage literals wkt) (hwkt : wkt ≠ 0)
    (hlength : recipe.ids.length = 1) : recipe.encoding = .bits 1 := by
  rcases h.kind with ⟨-, -, hencoding⟩ | ⟨-, -, hencoding⟩
  · have henum := h.fits.isEnum hwkt
    have hne : (storage == .f64) = false := by cases storage <;> first | rfl | cases henum
    rw [hencoding, hne, width_marked henum hwkt]
    rfl
  · rw [hencoding, hlength]

/-- Nine literals without a marker are four digits. -/
theorem Recipe.Suits.four_digits (h : recipe.Suits t active .e8 literals 0)
    (hlength : literals.length = 9) : recipe.encoding = .bits 4 := by
  obtain ⟨-, hencoding⟩ := h.unmarked
  have hbits : Mapper.bitLength 8 = 4 := by decide
  rw [hencoding]
  show Encoding.bits (if (0 : Nat) ≠ 0 then 1 else max 1 (Mapper.bitLength (literals.length - 1))) =
    _
  rw [hlength, hbits]
  rfl

/-- A marker of two literals and no marker, or two of them, on one digit. -/
theorem Recipe.Suits.agrees_bit (h : recipe.Suits t active storage literals wkt)
    (h' : recipe'.Suits t active storage literals' wkt') (halike : recipe.Alike recipe')
    (hle : wkt ≤ 2) (hle' : wkt' ≤ 2) (hlength : literals.length = 2) (hne : wkt ≠ 0 ∨ wkt' ≠ 0)
    (hone : recipe.ids.length = 1) : Agrees recipe recipe' literals wkt wkt' := by
  refine .bit hle hle' hlength hone ?_
  rcases hne with hne | hne
  · exact h.one_digit hne hone
  · rw [halike.encoding]
    exact h'.one_digit hne (halike.ids ▸ hone)

/-- **Recipes of one key agree.** The cases are on the markers of both. -/
theorem Recipe.Suits.agrees (h : recipe.Suits t active storage literals wkt)
    (h' : recipe'.Suits t active storage literals' wkt') (halike : recipe.Alike recipe')
    (hlengths : literals.length = literals'.length) : Agrees recipe recipe' literals wkt wkt' := by
  have hslot : recipe.vector = recipe'.vector ∨ recipe.ids.length = 1 := by
    rcases h.kind with ⟨hvector, hone, -⟩ | ⟨hvector, -, -⟩
    · exact .inr hone
    · rcases h'.kind with ⟨-, hone, -⟩ | ⟨hvector', -, -⟩
      · exact .inr (halike.ids ▸ hone)
      · exact .inl (hvector.trans hvector'.symm)
  rcases h.fits.cases with rfl | ⟨htwo, hstorage, hlength⟩ | ⟨rfl, hstorage, hlength⟩
  · rcases h'.fits.cases with rfl | ⟨htwo', hstorage', hlength'⟩ | ⟨rfl, rfl, hlength'⟩
    · exact .same rfl hslot
    · exact h.agrees_bit h' halike (by omega) (by omega) (hlengths.trans hlength') (.inr (by omega))
        h.unmarked.1
    · have hdigit := h'.one_digit (by decide) (halike.ids ▸ h.unmarked.1)
      have hdigits := h.four_digits (hlengths.trans hlength')
      rw [halike.encoding, hdigit] at hdigits
      cases hdigits
  · rcases h'.fits.cases with rfl | ⟨htwo', -, -⟩ | ⟨-, hstorage', -⟩
    · exact h.agrees_bit h' halike (by omega) (by omega) hlength (.inl (by omega))
        (halike.ids ▸ h'.unmarked.1)
    · by_cases hone : recipe.ids.length = 1
      · exact h.agrees_bit h' halike (by omega) (by omega) hlength (.inl (by omega)) hone
      · have hwkt : wkt = 2 := by
          rcases h.kind with ⟨-, hlength, -⟩ | ⟨-, hwkt, -⟩
          · exact absurd hlength hone
          · omega
        have hwkt' : wkt' = 2 := by
          rcases h'.kind with ⟨-, hlength, -⟩ | ⟨-, hwkt, -⟩
          · exact absurd (halike.ids ▸ hlength) hone
          · omega
        exact .same (hwkt.trans hwkt'.symm) hslot
    · cases hstorage.symm.trans hstorage'
  · rcases h'.fits.cases with rfl | ⟨-, hstorage', -⟩ | ⟨rfl, -, -⟩
    · subst hstorage
      have hdigit := h.one_digit (by decide) (halike.ids ▸ h'.unmarked.1)
      have hdigits := h'.four_digits (hlengths.symm.trans hlength)
      rw [← halike.encoding, hdigit] at hdigits
      cases hdigits
    · cases hstorage.symm.trans hstorage'
    · exact .same rfl hslot

/-- **An update does not see the type.** A value that is delivered for a source ID changes the
buffers of two recipes of one key in the same way. -/
theorem Recipe.Suits.update_core (first : Bool) (h : recipe.Suits t active storage literals wkt)
    (h' : recipe'.Suits t active storage' literals' wkt') (halike : recipe.Alike recipe')
    (hb : b.Of t recipe) (hb' : b'.Of t recipe') (hcore : b.core = b'.core)
    (hposition : position < recipe.ids.length) (hvalue : Stores literals.length storage value) :
    (b.update position value first).map Buffer.core =
      (b'.update position value first).map Buffer.core := by
  obtain ⟨rfl, hlengths⟩ := h.same_storage h' halike hposition
  have hplain : ∀ b b' : Buffer, b.Of t recipe → b'.Of t recipe' → b.core = b'.core →
      (b.update position value false).map Buffer.core =
        (b'.update position value false).map Buffer.core := by
    intro b b' hb hb' hcore
    have hwkt := h.wkt_eq hb
    have hwkt' := h'.wkt_eq hb'
    cases h.agrees h' halike hlengths with
    | same heq hslot =>
      refine update_same hcore (hwkt.trans (heq.trans hwkt'.symm)) ?_
      rw [hb.vector, hb'.vector]
      rcases hslot with hvector | hone
      · rw [hvector]
      · obtain rfl : position = 0 := by omega
        split <;> split <;> rfl
    | bit hle hle' htwo hone hencoding =>
      obtain rfl : position = 0 := by omega
      have hzero : ∀ vector : Bool, (if vector then 0 else 0) = 0 :=
        fun vector => by cases vector <;> rfl
      obtain ⟨hindex, hdigits, hreal, hrequired, hknown⟩ := core_eq_iff.1 hcore
      have hlength : b.digits.length = 1 := by
        have hwidth := hb.digits
        rw [hencoding] at hwidth
        exact (Option.some.inj hwidth).symm
      cases hvalue with
      | real => exact congrArg some (core_eq_iff.2 ⟨hindex, hdigits, rfl, hrequired, hknown⟩)
      | integer => exact setBits_core hcore _
      | ordinal henum hlt =>
        rw [htwo] at hlt
        rw [update_bit hlength (hwkt ▸ hle) (hzero _) hlt,
          update_bit (hdigits ▸ hlength) (hwkt' ▸ hle') (hzero _) hlt]
        exact congrArg some (core_eq_iff.2 ⟨hindex, rfl, hreal, hrequired, hknown⟩)
  rw [update_counted, update_counted (b := b')]
  cases first with
  | false => exact hplain b b' hb hb' hcore
  | true =>
    obtain ⟨hindex, hdigits, hreal, hrequired, hknown⟩ := core_eq_iff.1 hcore
    exact hplain _ _ ⟨hb.wkt, hb.vector, hb.digits, hb.required⟩
      ⟨hb'.wkt, hb'.vector, hb'.digits, hb'.required⟩
      (core_eq_iff.2 ⟨hindex, hdigits, hreal, hrequired, congrArg (· + 1) hknown⟩)

end

/-! ## Reads with other recipes of the same keys -/

namespace Assembly

/-- Two assemblies that differ in the types of their buffers only. -/
structure Same (a a' : Assembly) : Prop where
  buffers : a.buffers.map Buffer.core = a'.buffers.map Buffer.core
  dependencies : a.dependencies = a'.dependencies
  marks : a.marks = a'.marks
  touched : a.touched = a'.touched
  routes : a.routes = a'.routes
  selected : a.selected = a'.selected

section
variable {t : Types} {active : Active} {slots slots' : List Recipe} {a a' : Assembly}

/-- Buffers of matching assemblies have the same core. -/
theorem Same.buffer (h : Same a a') (slot : Nat) :
    (a.buffers[slot]?).map Buffer.core = (a'.buffers[slot]?).map Buffer.core := by
  have hget := congrArg (fun buffers : List Buffer => buffers[slot]?) h.buffers
  rwa [List.getElem?_map, List.getElem?_map] at hget

theorem core_value (b : Buffer) : b.core.value = b.value := rfl

/-- The values are the same. -/
theorem Same.values (h : Same a a') : a.values = a'.values := by
  have hvalues := congrArg (List.map Buffer.value) h.buffers
  rw [List.map_map, List.map_map] at hvalues
  exact hvalues

/-- A buffer that is put. -/
theorem Same.put (h : Same a a') (slot : Nat) {b b' : Buffer} (hcore : b.core = b'.core) :
    Same (a.put slot b) (a'.put slot b') := by
  refine ⟨?_, h.dependencies, ?_, ?_, h.routes, h.selected⟩
  · show (a.buffers.set slot b).map _ = (a'.buffers.set slot b').map _
    rw [List.map_set, List.map_set, h.buffers, hcore]
  · show (if a.marks.getD slot true then a.marks else a.marks.set slot true) = _
    rw [h.marks]
    rfl
  · show (if a.marks.getD slot true then a.touched else a.touched ++ [slot]) = _
    rw [h.marks, h.touched]
    rfl

/-- The end of a list. -/
theorem Same.listEnd (h : Same a a') (time : Nat) :
    (a.listEnd time).1 = (a'.listEnd time).1 ∧ Same (a.listEnd time).2 (a'.listEnd time).2 := by
  constructor
  · unfold Assembly.listEnd
    dsimp only
    rw [h.touched]
    congr 1
    funext slot
    have hget := h.buffer slot
    cases hb : a.buffers[slot]? with
    | none =>
      rw [hb] at hget
      rw [Option.map_eq_none_iff.1 hget.symm]
    | some b =>
      rw [hb] at hget
      obtain ⟨b', hb', hcore⟩ := Option.map_eq_some_iff.1 hget.symm
      obtain ⟨hindex, -, -, hrequired, hknown⟩ := core_eq_iff.1 hcore
      rw [hb']
      show (if b.known = b.required then some (Notification.value b.index time b.value) else none) =
        _
      rw [← core_value b, ← hcore, ← hindex, ← hrequired, ← hknown]
      rfl
  · refine ⟨h.buffers, h.dependencies, ?_, rfl, h.routes, h.selected⟩
    show a.touched.foldl _ a.marks = a'.touched.foldl _ a'.marks
    rw [h.touched, h.marks]

/-- Updates of several dependencies. -/
theorem updateAll_same {value : Scalar} {first : Bool}
    (halike : List.Forall₂ Recipe.Alike slots slots')
    (hslots' : AllSuit t active slots') (ds : List Dependency) : ∀ a a' : Assembly,
    StoresAll t active slots value ds → List.Forall₂ (Buffer.Of t) slots a.buffers →
    List.Forall₂ (Buffer.Of t) slots' a'.buffers → Same a a' →
    ∃ c c', updateAll value first ds a = some c ∧ updateAll value first ds a' = some c' ∧
    Same c c' := by
  induction ds with
  | nil => exact fun a a' _ _ _ hsame => ⟨a, a', rfl, rfl, hsame⟩
  | cons d ds ih =>
    intro a a' hstores hbuffers hbuffers' hsame
    obtain ⟨recipe, storage, literals, wkt, hrecipe, hposition, hsuits, hvalue⟩ :=
      hstores d (.head _)
    obtain ⟨b, hb, hof⟩ := exists_buffer hbuffers hrecipe
    obtain ⟨hlt, heq⟩ := List.getElem?_eq_some_iff.1 hrecipe
    have hlt' := hlt.trans_eq halike.length_eq
    have hkey := halike.get hlt hlt'
    rw [List.get_eq_getElem, List.get_eq_getElem, heq] at hkey
    have hrecipe' : slots'[d.slot]? = some slots'[d.slot] := List.getElem?_eq_getElem hlt'
    obtain ⟨storage', literals', wkt', hsuits'⟩ := hslots' _ (List.mem_of_getElem? hrecipe')
    obtain ⟨b', hb', hof'⟩ := exists_buffer hbuffers' hrecipe'
    have hcore : b.core = b'.core := by
      have hget := hsame.buffer d.slot
      rw [hb, hb'] at hget
      exact Option.some.inj hget
    obtain ⟨e, hupdate⟩ := hsuits.update first hof hposition hvalue
    have hupdates := hsuits.update_core first hsuits' hkey hof hof' hcore hposition hvalue
    rw [hupdate] at hupdates
    obtain ⟨e', hupdate', hcore'⟩ := Option.map_eq_some_iff.1 hupdates.symm
    obtain ⟨c, c', hrun, hrun', hlast⟩ := ih (a.put d.slot e) (a'.put d.slot e')
      (fun d' hd' => hstores d' (.tail _ hd'))
      (put_of hbuffers hrecipe (hof.updated (update_updated hupdate)))
      (put_of hbuffers' hrecipe' (hof'.updated (update_updated hupdate')))
      (hsame.put d.slot hcore'.symm)
    refine ⟨c, c', ?_, ?_, hlast⟩
    · rw [updateAll, hb]
      dsimp only
      rw [hupdate]
      exact hrun
    · rw [updateAll, hb']
      dsimp only
      rw [hupdate']
      exact hrun'

/-- What two reads rest on that differ in the types of their recipes. -/
structure Paired (t : Types) (active : Active) (slots slots' : List Recipe) : Prop where
  alike : List.Forall₂ Recipe.Alike slots slots'
  suits : AllSuit t active slots
  suits' : AllSuit t active slots'
  sorted : active.Pairwise fun x y => x.1 < y.1

/-- An event. -/
theorem consume_same (hpaired : Paired t active slots slots') (h : Fitted t active slots a)
    (h' : Fitted t active slots' a') (hsame : Same a a') {event : Event}
    (hevent : ∀ e, event = .scalar e → Delivers t active (sourceIdsOf a.dependencies) e) :
    ∃ notifications c c', a.consume event = some (notifications, c) ∧
      a'.consume event = some (notifications, c') ∧ Same c c' := by
  cases event with
  | tick time => exact ⟨_, a, a', rfl, rfl, hsame⟩
  | listEnd time =>
    obtain ⟨hnotifications, hlast⟩ := hsame.listEnd time
    exact ⟨(a.listEnd time).1, (a.listEnd time).2, (a'.listEnd time).2, rfl,
      congrArg some (Prod.ext hnotifications.symm rfl), hlast⟩
  | scalar e =>
    have hdelivers := hevent e rfl
    have hstep := scalarEvent_step h hpaired.suits hpaired.sorted hdelivers
    have hstep' := scalarEvent_step h' hpaired.suits' hpaired.sorted
      (hsame.dependencies ▸ hdelivers)
    have hscalar : ∃ c c', a.scalarEvent e = some c ∧ a'.scalarEvent e = some c' ∧ Same c c' := by
      generalize a.scalarEvent e = result at hstep
      generalize a'.scalarEvent e = result' at hstep'
      cases hstep with
      | missed hparted =>
        cases hstep' with
        | missed => exact ⟨a, a', rfl, rfl, hsame⟩
        | hit hparted' =>
          rw [← hsame.dependencies] at hparted'
          cases (hparted.unique hparted').2.1
      | @hit below others above owner hparted =>
        cases hstep' with
        | missed hparted' =>
          rw [← hsame.dependencies] at hparted'
          cases (hparted.unique hparted').2.1
        | hit hparted' =>
          rw [← hsame.dependencies] at hparted'
          obtain ⟨rfl, hequal, rfl⟩ := hparted.unique hparted'
          cases hequal
          exact updateAll_same hpaired.alike hpaired.suits' _ _ _
            (h.hit_stores hpaired.suits hdelivers hparted) h.buffers h'.buffers ⟨hsame.buffers, rfl,
            hsame.marks, hsame.touched, hsame.routes, hsame.selected⟩
    obtain ⟨c, c', hrun, hrun', hlast⟩ := hscalar
    refine ⟨[], c, c', ?_, ?_, hlast⟩
    · show (a.scalarEvent e).map _ = _
      rw [hrun]
      rfl
    · show (a'.scalarEvent e).map _ = _
      rw [hrun']
      rfl

/-- **Events do not see the types.** The notifications and the values of two reads are the same, by
induction on the events. -/
theorem run_same (hpaired : Paired t active slots slots') (events : List Event) : ∀ a a' : Assembly,
    Fitted t active slots a → Fitted t active slots' a' → Same a a' →
    EventsDelivered t active (sourceIdsOf a.dependencies) events →
    ∃ notifications c c', a.run events = some (notifications, c) ∧
      a'.run events = some (notifications, c') ∧ Same c c' := by
  induction events with
  | nil => exact fun a a' _ _ hsame _ => ⟨[], a, a', rfl, rfl, hsame⟩
  | cons event events ih =>
    intro a a' h h' hsame hevents
    have hevent : ∀ e, event = .scalar e → Delivers t active (sourceIdsOf a.dependencies) e :=
      fun e heq => hevents e (heq ▸ .head _)
    obtain ⟨first, b, hb, hfitted, hkeys⟩ := consume_total h hpaired.suits hpaired.sorted hevent
    obtain ⟨first', b', hb', hfitted', -⟩ := consume_total h' hpaired.suits' hpaired.sorted
      (hsame.dependencies ▸ hevent)
    obtain ⟨notifications, c, c', hc, hc', hlast⟩ := consume_same hpaired h h' hsame hevent
    cases hb.symm.trans hc
    cases hb'.symm.trans hc'
    obtain ⟨more, d, d', hd, hd', hfinal⟩ := ih b b' hfitted hfitted' hlast
      (sourceIdsOf_congr hkeys ▸ fun e he => hevents e (.tail _ he))
    refine ⟨first ++ more, d, d', ?_, ?_, hfinal⟩
    · rw [run, hb]
      show ((b.run events).bind fun r => some (first ++ r.1, r.2)) = _
      rw [hd]
      rfl
    · rw [run, hc']
      show ((b'.run events).bind fun r => some (first ++ r.1, r.2)) = _
      rw [hd']
      rfl

end

/-! ## Preparation -/

section
variable {t : Types} {active : Active} {recipes recipes' : List Recipe} {w w' : Wire}

/-- Every recipe has another one of its key in its place, with a scalar type. -/
def Replaces (t : Types) (recipes recipes' : List Recipe) : Prop :=
  ∀ (s : Nat) (recipe : Recipe), recipes[s]? = some recipe → ∃ recipe',
  recipes'[s]? = some recipe' ∧
    recipe.Alike recipe' ∧ (t.scalar recipe'.scalarType).isSome

/-- Recipes that are alike make buffers with the same core. -/
theorem new_same {index : Nat} {recipe recipe' : Recipe} {b : Buffer}
    (halike : recipe.Alike recipe') (hscalar : (t.scalar recipe'.scalarType).isSome)
    (h : Buffer.new t index recipe w = (.ok b, w')) :
    ∃ b', Buffer.new t index recipe' w = (.ok b', w') ∧ b.core = b'.core := by
  obtain ⟨⟨storage, literals, wkt⟩, hscalar⟩ := Option.isSome_iff_exists.1 hscalar
  unfold Buffer.new at h ⊢
  rw [hscalar, ← halike.ids, ← halike.encoding]
  cases hown : t.scalar recipe.scalarType with
  | none => rw [hown] at h; cases h
  | some own =>
    rw [hown] at h
    dsimp only at h ⊢
    cases hwidth : Buffer.widthOf recipe.encoding with
    | none => rw [hwidth] at h; cases h
    | some width =>
      rw [hwidth] at h
      cases h
      exact ⟨_, rfl, rfl⟩

/-- The buffers and the dependencies of the selected signals, by induction on them. -/
theorem gather_same (hreplaces : Replaces t recipes recipes') (signals : List Signal) :
    ∀ (buffers buffers' bs : List Buffer) (dependencies ds : List Dependency) (w : Wire),
    buffers.map Buffer.core = buffers'.map Buffer.core →
    gather t recipes signals buffers dependencies w = (.ok (bs, ds), w') →
    ∃ bs', gather t recipes' signals buffers' dependencies w = (.ok (bs', ds), w') ∧
      bs.map Buffer.core = bs'.map Buffer.core := by
  induction signals with
  | nil =>
    intro buffers buffers' bs dependencies ds w hsame h
    cases h
    exact ⟨buffers', rfl, hsame⟩
  | cons signal signals ih =>
    intro buffers buffers' bs dependencies ds w hsame h
    unfold gather at h ⊢
    cases hrecipe : recipes[signal.index]? with
    | none => rw [hrecipe] at h; cases h
    | some recipe =>
      rw [hrecipe] at h
      obtain ⟨recipe', hrecipe', halike, hscalar⟩ := hreplaces _ recipe hrecipe
      obtain ⟨b, w₁, hb, hrest⟩ := Decoder.bind_eq_ok.1 h
      obtain ⟨b', hb', hcore⟩ := new_same halike hscalar hb
      have hlength : buffers.length = buffers'.length := by
        have := congrArg List.length hsame
        rwa [List.length_map, List.length_map] at this
      obtain ⟨bs', hgather, hlast⟩ := ih (buffers ++ [b]) (buffers' ++ [b']) bs _ ds w₁
        (by
          rw [List.map_append, List.map_append, hsame]
          exact congrArg _ (congrArg (fun b => [b]) hcore))
        hrest
      rw [hrecipe']
      refine ⟨bs', Decoder.bind_eq_ok.2 ⟨b', w₁, hb', ?_⟩, hlast⟩
      rw [← hgather, Recipe.dependencies, Recipe.dependencies, ← halike.ids, hlength]

/-- A read that is prepared with other recipes. -/
theorem prepare_same (hreplaces : Replaces t recipes recipes') {indexed : Bool}
    {sort : List Dependency → List Dependency} {signals : List Signal} {a : Assembly}
    (h : prepare t recipes active indexed sort signals w = (.ok a, w')) :
    ∃ a', prepare t recipes' active indexed sort signals w = (.ok a', w') ∧ Same a a' := by
  obtain ⟨⟨buffers, dependencies⟩, w₁, hgather, hpure⟩ := Decoder.bind_eq_ok.1 h
  obtain ⟨buffers', hgather', hcore⟩ := gather_same hreplaces signals [] [] _ _ _ _ rfl hgather
  cases hpure
  refine ⟨_, Decoder.bind_eq_ok.2 ⟨_, w', hgather', rfl⟩, hcore, rfl, ?_, rfl, rfl, rfl⟩
  have hlength := congrArg List.length hcore
  rw [List.length_map, List.length_map] at hlength
  show buffers.map (fun _ => false) = buffers'.map fun _ => false
  rw [List.map_const', List.map_const', hlength]

end

end Assembly

/-! ## Sections -/

/-- One recipe for each signal, asked for by some leaf that has the signal. -/
structure AskedBy (t : Types) (d : Declarations) (leaves : List Leaf) (recipes : List Recipe) :
    Prop where
  length : recipes.length = d.recipes.length
  asked : ∀ (s : Nat) (own : Recipe), recipes[s]? = some own → ∃ (i : Nat) (leaf : Leaf)
    (v : VariableData), leaves[i]? = some leaf ∧ d.vars[i]? = some v ∧ v.signal = some s ∧
      leaf.recipe t = some own

/-- What sharing does to the leaves of a section. -/
structure Shared (t : Types) (d : Declarations) (leaves : List Leaf) : Prop where
  vars : d.vars.length = leaves.length
  without : ∀ (i : Nat) (leaf : Leaf) (v : VariableData), leaves[i]? = some leaf →
    d.vars[i]? = some v → (v.signal = none ↔ leaf.ids = [])
  first : ∀ (s : Nat) (recipe : Recipe), d.recipes[s]? = some recipe → ∃ (i : Nat) (leaf : Leaf)
    (v : VariableData), leaves[i]? = some leaf ∧ leaf.recipe t = some recipe ∧ d.vars[i]? = some v ∧
      v.signal = some s ∧ ∀ v' ∈ d.vars.take i, v'.signal ≠ some s
  key : ∀ (i : Nat) (leaf : Leaf) (v : VariableData) (s : Nat), leaves[i]? = some leaf →
    d.vars[i]? = some v → v.signal = some s → ∃ recipe own, d.recipes[s]? = some recipe ∧
      leaf.recipe t = some own ∧ own.ids = leaf.ids ∧ recipe.Alike own

section
variable {t : Types} {d : Declarations} {leaves : List Leaf} {m : Mapper}

/-- The variable of a leaf, with the recipe it asks for. -/
theorem Mapped.sourced (h : Mapped t m leaves) {i : Nat} {leaf : Leaf} {v : VariableData}
    (hleaf : leaves[i]? = some leaf) (hv : m.vars[i]? = some v) :
    ∃ own, Sourced t m v leaf own := by
  obtain ⟨hlt, heq⟩ := List.getElem?_eq_some_iff.1 hv
  obtain ⟨hlt', heq'⟩ := List.getElem?_eq_some_iff.1 hleaf
  have hsourced := h.vars.get hlt hlt'
  rwa [List.get_eq_getElem, List.get_eq_getElem, heq, heq'] at hsourced

/-- What sharing does to the leaves of a mapper. -/
theorem Mapped.shared (h : Mapped t m leaves) (hvars : d.vars = m.vars)
    (hrecipes : d.recipes = m.recipes.list) : Shared t d leaves := by
  refine ⟨hvars ▸ h.vars.length_eq, fun i leaf v hleaf hv => ?_, ?_,
    fun i leaf v s hleaf hv hs => ?_⟩
  · rw [hvars] at hv
    obtain ⟨own, hsourced⟩ := h.sourced hleaf hv
    have hsignal := hsourced.signal
    cases hs : v.signal with
    | none =>
      rw [hs] at hsignal
      exact ⟨fun _ => hsignal, fun _ => rfl⟩
    | some signal =>
      rw [hs] at hsignal
      exact ⟨nofun, fun hids => absurd hids hsignal.1⟩
  · rw [hvars, hrecipes]
    exact h.first
  · rw [hvars] at hv
    obtain ⟨own, hsourced⟩ := h.sourced hleaf hv
    have hsignal := hsourced.signal
    rw [hs] at hsignal
    obtain ⟨-, recipe, hrecipe, hids, hencoding⟩ := hsignal
    exact ⟨recipe, own, hrecipes ▸ hrecipe, hsourced.asked, hsourced.ids, hids, hencoding⟩

/-- Recipes that leaves of the signals ask for replace each other. -/
theorem Shared.replaces (h : Shared t d leaves) {recipes recipes' : List Recipe}
    (hrecipes : AskedBy t d leaves recipes) (hrecipes' : AskedBy t d leaves recipes') :
    Assembly.Replaces t recipes recipes' := by
  intro s recipe hrecipe
  obtain ⟨i, leaf, v, hleaf, hv, hs, hasked⟩ := hrecipes.asked s recipe hrecipe
  have hlt : s < recipes'.length := by
    rw [hrecipes'.length, ← hrecipes.length]
    exact (List.getElem?_eq_some_iff.1 hrecipe).1
  have hrecipe' : recipes'[s]? = some recipes'[s] := List.getElem?_eq_getElem hlt
  obtain ⟨i', leaf', v', hleaf', hv', hs', hasked'⟩ := hrecipes'.asked s _ hrecipe'
  obtain ⟨shared, own, hshared, hown, -, halike⟩ := h.key i leaf v s hleaf hv hs
  obtain ⟨shared', own', hshared', hown', -, halike'⟩ := h.key i' leaf' v' s hleaf' hv' hs'
  cases hshared.symm.trans hshared'
  cases hown.symm.trans hasked
  cases hown'.symm.trans hasked'
  refine ⟨_, hrecipe', ⟨halike.ids.symm.trans halike'.ids,
    halike.encoding.symm.trans halike'.encoding⟩,
    ?_⟩
  obtain ⟨scalarType, -, hmap⟩ := Option.bind_eq_some_iff.1 hasked'
  obtain ⟨scalar, hscalar, heq⟩ := Option.map_eq_some_iff.1 hmap
  rw [← heq, hscalar]
  rfl

/-- Recipes that leaves of a section ask for suit its active table. -/
theorem AskedBy.suits (ht : t.WellFormed) (hmarked : t.Marked) (h : Mapped t m leaves)
    (hactive : d.active = m.scalarTypes.intoActive t) {recipes : List Recipe}
    (hrecipes : AskedBy t d leaves recipes) : AllSuit t d.active recipes := by
  intro recipe hmem
  obtain ⟨s, hs⟩ := List.getElem?_of_mem hmem
  obtain ⟨i, leaf, v, hleaf, -, -, hasked⟩ := hrecipes.asked s recipe hs
  rw [hactive]
  exact h.suits ht hmarked (List.mem_of_getElem? hleaf) hasked

end

/-- The recipes of a section are those that the first leaves of its signals ask for. -/
theorem Shared.askedBy {t : Types} {d : Declarations} {leaves : List Leaf} (h : Shared t d leaves) :
    AskedBy t d leaves d.recipes := by
  refine ⟨rfl, fun s recipe hrecipe => ?_⟩
  obtain ⟨i, leaf, v, hleaf, hasked, hv, hs, -⟩ := h.first s recipe hrecipe
  exact ⟨i, leaf, v, hleaf, hv, hs, hasked⟩

/-- What an assembly makes of the recipes of a list for the selected signals. -/
theorem slots_mem {recipes slots : List Recipe} {signals : List Signal}
    (h : List.Forall₂ (fun signal recipe => recipes[signal.index]? = some recipe) signals slots) :
    ∀ recipe ∈ slots, recipe ∈ recipes := by
  induction h with
  | nil => exact nofun
  | cons hrecipe _ ih =>
    intro recipe hmem
    rcases List.mem_cons.1 hmem with rfl | hmem
    · exact List.mem_of_getElem? hrecipe
    · exact ih recipe hmem

/-- The recipes of the selected signals are alike when those of all signals are. -/
theorem slots_alike {t : Types} {recipes recipes' slots slots' : List Recipe}
    {signals : List Signal} (hreplaces : Assembly.Replaces t recipes recipes')
    (h : List.Forall₂ (fun signal recipe => recipes[signal.index]? = some recipe) signals slots)
    (h' : List.Forall₂ (fun signal recipe => recipes'[signal.index]? = some recipe)
      signals slots') :
    List.Forall₂ Recipe.Alike slots slots' := by
  induction h generalizing slots' with
  | nil =>
    cases h'
    exact .nil
  | cons hrecipe _ ih =>
    cases h' with
    | cons hrecipe' hrest' =>
      obtain ⟨recipe', hget, halike, -⟩ := hreplaces _ _ hrecipe
      cases hget.symm.trans hrecipe'
      exact .cons halike (ih hrest')

/-- **Sharing recipes is sound.** In an accepted section each signal has the recipe of the first
leaf that has it, and leaves with other source IDs have another signal. A read of any signals with
recipes that any leaves of these signals ask for gives the same notifications, and after every event
the same values, as a read with those of any other leaves, for all scalars that the walk
delivers. -/
theorem sharing_sound {strings : List String} {t : Types} {w₀ w₁ : Wire}
    (hparse : Types.parse strings w₀ = (.ok t, w₁)) {d : Declarations} {w w' : Wire}
    (hread : Declarations.read t w = (.ok d, w')) :
    ∃ leaves, sectionLeaves t w = (.ok leaves, w') ∧ Shared t d leaves ∧
      (∀ (i j : Nat) (leaf leaf' : Leaf) (v v' : VariableData) (s : Nat), leaves[i]? = some leaf →
        leaves[j]? = some leaf' → d.vars[i]? = some v → d.vars[j]? = some v' → v.signal = some s →
        v'.signal = some s → leaf.ids = leaf'.ids) ∧
      (∀ stop bulk walk ids, AllDelivered t d.active ids (walkStep ⟨t, d.active, stop⟩ bulk walk).1)
        ∧
      AskedBy t d leaves d.recipes ∧
      ∀ recipes recipes', AskedBy t d leaves recipes → AskedBy t d leaves recipes' →
        ∀ indexed sort signals w₂ w₃ a, Assembly.Sorts sort →
          Assembly.prepare t recipes d.active indexed sort signals w₂ = (.ok a, w₃) →
          ∃ a', Assembly.prepare t recipes' d.active indexed sort signals w₂ = (.ok a', w₃) ∧
            ∀ events, Assembly.EventsDelivered t d.active (sourceIdsOf a.dependencies) events →
              ∃ notifications c c', a.run events = some (notifications, c) ∧
                a'.run events = some (notifications, c') ∧ c.values = c'.values := by
  have ht := Types.parse_wellFormed strings _ _ _ hparse
  have hmarked := Types.parse_marked strings _ _ _ hparse
  obtain ⟨leaves, m, hleaves, hm, hvars, hrecipes, hactive⟩ := read_mapped ht hread
  have hshared := hm.shared hvars hrecipes
  refine ⟨leaves, hleaves, hshared, ?_, fun stop bulk walk ids => walkStep_delivered _ bulk walk,
    hshared.askedBy, ?_⟩
  · intro i j leaf leaf' v v' s hleaf hleaf' hv hv' hs hs'
    obtain ⟨recipe, own, hrecipe, -, hids, halike⟩ := hshared.key i leaf v s hleaf hv hs
    obtain ⟨recipe', own', hrecipe', -, hids', halike'⟩ := hshared.key j leaf' v' s hleaf' hv' hs'
    cases hrecipe.symm.trans hrecipe'
    rw [← hids, ← hids', ← halike.ids, halike'.ids]
  · intro recipes recipes' hasked hasked' indexed sort signals w₂ w₃ a hsort hprepare
    have hreplaces := hshared.replaces hasked hasked'
    obtain ⟨a', hprepare', hsame⟩ := Assembly.prepare_same hreplaces hprepare
    obtain ⟨slots, hslots, hfitted, -⟩ := Assembly.prepare_fitted hsort hprepare
    obtain ⟨slots', hslots', hfitted', -⟩ := Assembly.prepare_fitted hsort hprepare'
    have hpaired : Assembly.Paired t d.active slots slots' := by
      refine ⟨slots_alike hreplaces hslots hslots', ?_, ?_, ?_⟩
      · exact fun recipe hmem => hasked.suits ht hmarked hm hactive recipe
          (slots_mem hslots recipe hmem)
      · exact fun recipe hmem => hasked'.suits ht hmarked hm hactive recipe
          (slots_mem hslots' recipe hmem)
      · rw [hactive]
        exact hm.table.intoActive_sorted t
    refine ⟨a', hprepare', fun events hevents => ?_⟩
    obtain ⟨notifications, c, c', hrun, hrun', hlast⟩ :=
      Assembly.run_same hpaired events a a' hfitted hfitted' hsame hevents
    exact ⟨notifications, c, c', hrun, hrun', hlast.values⟩

/-- The strings of `sharedFile`. -/
def sharedStrings : List String := ["", "'0'", "'1'", "bit", "false", "true", "boolean", "a", "b"]

/-- A type table with a bit and a Boolean, both marked. -/
def sharedFile : Wire :=
  ⟨[84, 89, 80, 0, 0, 0, 0, 0, 2, 0, 0, 0, 22, 3, 2, 1, 2, 22, 6, 2, 4, 5, 0, 87, 75, 84, 0, 0, 0,
    0, 0, 2, 1, 1, 2, 0, 72, 73, 69, 0], none, 0, 40, false, 0, 0, 0, fun _ => 1⟩

/-- A hierarchy section with an object of each type, both of the source ID 1. -/
def sharedSection : Wire :=
  ⟨[0, 0, 0, 0, 0, 0, 0, 0, 2, 0, 0, 0, 1, 0, 0, 0, 16, 7, 1, 1, 16, 8, 2, 1, 0], none, 0, 25,
    false, 0, 0, 0, fun _ => 1⟩

/-- The Boolean shares the recipe of the bit, and can be read with its own. -/
theorem sharing_sound_bit : ∃ t d leaves w₁ w',
    Types.parse sharedStrings sharedFile = (.ok t, w₁) ∧
      Declarations.read t sharedSection = (.ok d, w') ∧
      d.vars.map VariableData.signal = [some 0, some 0] ∧ Shared t d leaves ∧
      AskedBy t d leaves [⟨[1], .bits 1, 0, false⟩] ∧
      AskedBy t d leaves [⟨[1], .bits 1, 1, false⟩] := by
  have hrun : ((Types.parse sharedStrings sharedFile).1.toOption.bind fun t =>
      (Declarations.read t sharedSection).1.toOption.bind fun d =>
        (sectionLeaves t sharedSection).1.toOption.map fun leaves =>
          (d.vars.map VariableData.signal, d.recipes.length, leaves.map (Leaf.recipe t))) =
      some ([some 0, some 0], 1,
        [some ⟨[1], .bits 1, 0, false⟩, some ⟨[1], .bits 1, 1, false⟩]) := by decide +kernel
  obtain ⟨t, ht, hrun⟩ := Option.bind_eq_some_iff.1 hrun
  obtain ⟨w₁, hparse⟩ := Decoder.exists_ok ht
  obtain ⟨d, hd, hrun⟩ := Option.bind_eq_some_iff.1 hrun
  obtain ⟨w', hread⟩ := Decoder.exists_ok hd
  obtain ⟨leaves, hleaves, hshared, -, -, -, -⟩ := sharing_sound hparse hread
  rw [hleaves] at hrun
  obtain ⟨hsignals, hrest⟩ := Prod.mk.inj (Option.some.inj hrun)
  obtain ⟨hlength, hasked⟩ := Prod.mk.inj hrest
  have hleaf : ∀ (i : Nat) (own : Recipe), (leaves.map (Leaf.recipe t))[i]? = some (some own) →
      (d.vars.map VariableData.signal)[i]? = some (some 0) → AskedBy t d leaves [own] := by
    intro i own hown hsignal
    rw [List.getElem?_map] at hown hsignal
    obtain ⟨leaf, hleaf, howned⟩ := Option.map_eq_some_iff.1 hown
    obtain ⟨v, hv, hs⟩ := Option.map_eq_some_iff.1 hsignal
    refine ⟨hlength.symm, fun s own' hs' => ?_⟩
    cases s with
    | zero =>
      cases hs'
      exact ⟨i, leaf, v, hleaf, hv, hs, howned⟩
    | succ s => cases hs'
  refine ⟨t, d, leaves, w₁, w', hparse, hread, hsignals, hshared, hleaf 0 _ ?_ ?_, hleaf 1 _ ?_ ?_⟩
  · rw [hasked]
    rfl
  · rw [hsignals]
    rfl
  · rw [hasked]
    rfl
  · rw [hsignals]
    rfl

end Ondas.Ghw
