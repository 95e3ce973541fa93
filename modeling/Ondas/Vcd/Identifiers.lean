import Mathlib.Tactic.Ring
import Ondas.Vcd.Walk

/-!
# Identifier codes

The body names a history by a code of printable bytes. The reader looks codes up in a map, and when
the declared codes are dense it asks a table first, at the number that a code writes in base 94
without a zero digit (`identifierNumber`). No two codes write one number (`codeNumber_inj`), and a
code whose number is too large for a word, or with a byte that is not printable, has none
(`identifierNumber_eq_some`). So the table never answers for another code, and what it does not
answer the map does: `lookup_eq_map`.
-/

namespace Ondas.Vcd

/-! ## The table -/

/-- A declared code with its history. -/
abbrev Declared := List UInt8 × Nat

/-- The largest number of some codes, when all of them have one. -/
def maxNumber (ids : List Declared) : Option Nat :=
  ids.foldlM (fun most id => (identifierNumber id.1).map (max most)) 0

/-- The entries of the table, one for each code. -/
def fillDense (ids : List Declared) (table : List (Option Nat)) : List (Option Nat) :=
  ids.foldl (fun table id => table.set ((identifierNumber id.1).getD 0) (some id.2)) table

/-- The direct table of `Reader::open`: empty unless the numbers of the codes are dense. -/
def denseTable (ids : List Declared) : List (Option Nat) :=
  match maxNumber ids with
  | some most =>
    if most < min (ids.length * 2) (2 ^ 64 - 1) then
      fillDense ids (List.replicate (most + 1) none)
    else []
  | none => []

/-! ## Numbers of codes -/

/-- A printable code. -/
def Printable (id : List UInt8) : Prop := ∀ b ∈ id, 33 ≤ b ∧ b ≤ 126

/-- The number that a code writes, the first byte least significant. -/
def codeNumber : List UInt8 → Nat
  | [] => 0
  | byte :: rest => codeNumber rest * 94 + (byte.toNat - 32)

/-- A digit of a code is no zero. -/
theorem printable_digit {b : UInt8} (h : 33 ≤ b ∧ b ≤ 126) : 33 ≤ b.toNat ∧ b.toNat ≤ 126 := by
  simpa [UInt8.le_iff_toNat_le] using h

/-- Printable codes with one number are the same: the least digit is the rest of a division by 94,
as no digit is zero. -/
theorem codeNumber_inj {id id' : List UInt8} (hid : Printable id) (hid' : Printable id')
    (h : codeNumber id = codeNumber id') : id = id' := by
  induction id generalizing id' with
  | nil =>
    cases id' with
    | nil => rfl
    | cons b rest =>
      have := printable_digit (hid' b (.head _))
      simp only [codeNumber] at h
      omega
  | cons b rest ih =>
    have hb := printable_digit (hid b (.head _))
    cases id' with
    | nil =>
      simp only [codeNumber] at h
      omega
    | cons b' rest' =>
      have hb' := printable_digit (hid' b' (.head _))
      simp only [codeNumber] at h
      obtain rfl : b = b' := UInt8.toNat_inj.1 (by omega)
      rw [ih (fun c hc => hid c (.tail _ hc)) (fun c hc => hid' c (.tail _ hc)) (by omega)]

/-- A code has a number when it is printable and its number fits a word. -/
theorem identifierNumber_eq_some {id : List UInt8} {number : Nat} :
    identifierNumber id = some number ↔
      Printable id ∧ number = codeNumber id ∧ codeNumber id < 2 ^ 64 := by
  induction id generalizing number with
  | nil =>
    simp only [identifierNumber, Option.some.injEq, codeNumber, Printable, List.not_mem_nil,
      false_imp_iff, implies_true, true_and]
    exact ⟨fun h => ⟨h.symm, by decide⟩, fun h => h.1.symm⟩
  | cons byte rest ih =>
    rw [identifierNumber]
    cases hrest : identifierNumber rest with
    | none =>
      refine ⟨(fun h => by cases h), ?_⟩
      rintro ⟨hprintable, hnumber, hfits⟩
      have hsmall : codeNumber rest < 2 ^ 64 := by
        rw [codeNumber] at hfits
        omega
      have hsome := ih.2 ⟨fun b hb => hprintable b (.tail _ hb), rfl, hsmall⟩
      rw [hrest] at hsome
      cases hsome
    | some n =>
      obtain ⟨hprintable, rfl, hsmall⟩ := ih.1 hrest
      dsimp only
      split
      next hbyte =>
        rw [Bool.and_eq_true, decide_eq_true_iff, decide_eq_true_iff] at hbyte
        have hall : Printable (byte :: rest) := List.forall_mem_cons.2 ⟨hbyte, hprintable⟩
        split
        next hfits =>
          exact ⟨fun h => ⟨hall, (Option.some.inj h).symm, hfits⟩, fun h => by rw [h.2.1]; rfl⟩
        next hfits => exact ⟨(fun h => by cases h), fun h => absurd h.2.2 hfits⟩
      next hbyte =>
        refine ⟨(fun h => by cases h), fun h => absurd (h.1 byte (.head _)) ?_⟩
        simpa using hbyte

/-- Two codes never have one number. -/
theorem identifierNumber_inj {id id' : List UInt8} {number : Nat}
    (h : identifierNumber id = some number) (h' : identifierNumber id' = some number) :
    id = id' := by
  obtain ⟨hid, rfl, -⟩ := identifierNumber_eq_some.1 h
  obtain ⟨hid', heq, -⟩ := identifierNumber_eq_some.1 h'
  exact codeNumber_inj hid hid' heq

/-! ## What the table answers -/

/-- The numbers of codes are at most the largest one. -/
theorem foldlM_max {ids : List Declared} {start most : Nat}
    (h : ids.foldlM (fun most id => (identifierNumber id.1).map (max most)) start = some most) :
    start ≤ most ∧ ∀ id ∈ ids, ∃ number, identifierNumber id.1 = some number ∧ number ≤ most := by
  induction ids generalizing start with
  | nil => exact ⟨(Option.some.inj h).le, nofun⟩
  | cons id ids ih =>
    obtain ⟨next, hnext, hrest⟩ := Option.bind_eq_some_iff.1 h
    obtain ⟨number, hnumber, rfl⟩ := Option.map_eq_some_iff.1 hnext
    obtain ⟨hle, hids⟩ := ih hrest
    refine ⟨(le_max_left _ _).trans hle, List.forall_mem_cons.2 ⟨?_, hids⟩⟩
    exact ⟨number, hnumber, (le_max_right _ _).trans hle⟩

/-- Filling in codes sets their entries, and leaves the others. -/
theorem fillDense_getElem {ids : List Declared} (table : List (Option Nat))
    (hdistinct : (ids.map Prod.fst).Nodup)
    (hnumbers : ∀ id ∈ ids, ∃ number, identifierNumber id.1 = some number ∧ number < table.length) :
    (∀ id ∈ ids, ∀ number, identifierNumber id.1 = some number →
      (fillDense ids table)[number]? = some (some id.2)) ∧
    ∀ number, (∀ id ∈ ids, identifierNumber id.1 ≠ some number) →
      (fillDense ids table)[number]? = table[number]? := by
  induction ids generalizing table with
  | nil => exact ⟨nofun, fun _ _ => rfl⟩
  | cons id ids ih =>
    obtain ⟨hnew, hdistinct⟩ := List.nodup_cons.1 hdistinct
    obtain ⟨number, hnumber, hlt⟩ := hnumbers id (.head _)
    have hfill : fillDense (id :: ids) table = fillDense ids (table.set number (some id.2)) := by
      rw [fillDense, List.foldl_cons, hnumber]
      rfl
    obtain ⟨hset, hleft⟩ := ih (table.set number (some id.2)) hdistinct fun id' hid' => by
      rw [List.length_set]
      exact hnumbers id' (.tail _ hid')
    -- The number of a code is none of the codes that follow.
    have hfree : ∀ id' ∈ ids, identifierNumber id'.1 ≠ some number := fun id' hid' hsame =>
      hnew (identifierNumber_inj hnumber hsame ▸ List.mem_map_of_mem hid')
    rw [hfill]
    refine ⟨List.forall_mem_cons.2 ⟨fun number' hnumber' => ?_, hset⟩, fun number' hother => ?_⟩
    · rw [hnumber] at hnumber'
      cases hnumber'
      rw [hleft number hfree, List.getElem?_set_self hlt]
    · obtain ⟨hne, hother⟩ := List.forall_mem_cons.1 hother
      have hdiffers : number ≠ number' := fun heq => hne (hnumber.trans (congrArg some heq))
      rw [hleft number' hother, List.getElem?_set_ne hdiffers]

/-- The entries of the map. -/
theorem lookup_of_mem {ids : List Declared} (hdistinct : (ids.map Prod.fst).Nodup) {id : Declared}
    (hid : id ∈ ids) : ids.lookup id.1 = some id.2 := by
  induction ids with
  | nil => cases hid
  | cons first ids ih =>
    obtain ⟨hnew, hrest⟩ := List.nodup_cons.1 hdistinct
    rw [List.lookup_cons]
    rcases List.mem_cons.1 hid with rfl | hid
    · rw [beq_self_eq_true]
    · have hne : (id.1 == first.1) = false :=
        beq_eq_false_iff_ne.2 fun heq => hnew (List.mem_map.2 ⟨id, hid, heq⟩)
      rw [hne]
      exact ih hrest hid

/-- A table that is used has a place for the number of every declared code. -/
theorem denseTable_numbers {ids : List Declared} (h : denseTable ids ≠ []) :
    ∃ most, denseTable ids = fillDense ids (List.replicate (most + 1) none) ∧
      ∀ id ∈ ids, ∃ number, identifierNumber id.1 = some number ∧ number < most + 1 := by
  unfold denseTable at h ⊢
  cases hmost : maxNumber ids with
  | none =>
    rw [hmost] at h
    exact absurd rfl h
  | some most =>
    rw [hmost] at h
    dsimp only at h ⊢
    split
    next hdense =>
      refine ⟨most, rfl, fun id hid => ?_⟩
      obtain ⟨number, hnumber, hle⟩ := (foldlM_max hmost).2 id hid
      exact ⟨number, hnumber, Nat.lt_succ_of_le hle⟩
    next hsparse =>
      rw [if_neg hsparse] at h
      exact absurd rfl h

/-- Filling a table keeps its length. -/
theorem length_fillDense (ids : List Declared) (table : List (Option Nat)) :
    (fillDense ids table).length = table.length := by
  induction ids generalizing table with
  | nil => rfl
  | cons id ids ih => exact (ih _).trans List.length_set

/-- What the table has for a token is what the map has for it. -/
theorem table_answers {ids : List Declared} {most : Nat} {token : List UInt8} {number index : Nat}
    (hdistinct : (ids.map Prod.fst).Nodup)
    (hnumbers : ∀ id ∈ ids, ∃ number, identifierNumber id.1 = some number ∧ number < most + 1)
    (htoken : identifierNumber token = some number)
    (h : (fillDense ids (List.replicate (most + 1) none))[number]? = some (some index)) :
    ids.lookup token = some index := by
  obtain ⟨hset, hleft⟩ := fillDense_getElem (List.replicate (most + 1) none) hdistinct
    fun id hid => by rw [List.length_replicate]; exact hnumbers id hid
  by_cases hdeclared : ∃ id ∈ ids, identifierNumber id.1 = some number
  · obtain ⟨id, hid, hnumber⟩ := hdeclared
    rw [hset id hid number hnumber] at h
    cases h
    rw [identifierNumber_inj htoken hnumber]
    exact lookup_of_mem hdistinct hid
  · rw [hleft number fun id hid hnumber => hdeclared ⟨id, hid, hnumber⟩] at h
    rw [List.getElem?_replicate] at h
    split at h <;> cases h

/-- **The table agrees with the map.** For every token the lookup through the table of the declared
codes, with the map behind it, answers what the map does. Codes do not share a number, and one whose
number does not fit a word has none; a table that is used has a place for every declared code. -/
theorem lookup_eq_map (args : WalkArgs) (hdistinct : (args.ids.map Prod.fst).Nodup)
    (htable : args.denseIds = denseTable args.ids) :
    (∀ token, args.lookup token = args.ids.lookup token) ∧
    (∀ id id' number, identifierNumber id = some number → identifierNumber id' = some number →
      id = id') ∧
    (∀ id number, identifierNumber id = some number ↔
      Printable id ∧ number = codeNumber id ∧ codeNumber id < 2 ^ 64) ∧
    (args.denseIds ≠ [] → ∀ id ∈ args.ids, ∃ number, identifierNumber id.1 = some number ∧
      number < args.denseIds.length) := by
  refine ⟨fun token => ?_, fun _ _ _ => identifierNumber_inj, fun _ _ => identifierNumber_eq_some,
    fun hused => ?_⟩
  · unfold WalkArgs.lookup
    split
    · rfl
    next hused =>
      have hne : denseTable args.ids ≠ [] := by
        rw [← htable]
        simpa using hused
      obtain ⟨most, hfill, hnumbers⟩ := denseTable_numbers hne
      split
      next index hindex =>
        obtain ⟨number, hnumber, hjoin⟩ := Option.bind_eq_some_iff.1 hindex
        rw [htable, hfill] at hjoin
        exact (table_answers hdistinct hnumbers hnumber (Option.join_eq_some_iff.1 hjoin)).symm
      next => rfl
  · rw [htable] at hused ⊢
    obtain ⟨most, hfill, hnumbers⟩ := denseTable_numbers hused
    rw [hfill, length_fillDense, List.length_replicate]
    exact hnumbers

/-- Two codes, of which the table has one place between them. -/
theorem lookup_eq_map_two :
    let args : WalkArgs := ⟨[([33], 0), ([35], 1)], denseTable [([33], 0), ([35], 1)],
      fun _ => none,
      0, none, false, none⟩
    args.denseIds = [none, some 0, none, some 1] ∧
      ∀ token, args.lookup token = args.ids.lookup token := by
  intro args
  exact ⟨by decide, (lookup_eq_map args (by decide) rfl).1⟩

end Ondas.Vcd
