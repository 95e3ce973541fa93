import Ondas.Query.Slices

/-!
# The registry of compositions

`Waveform::concat` keeps its definitions in a list and finds an earlier one of the same parts in a
table. `Registry` is that state, and `Registry.concat` one call on it. The table names exactly the
definitions of the list (`Registry.Sound`), so a call does what `Waveform.concat` says
(`concat_waveform`), and later calls only append (`Registry.Extends`): a handle means the same
definition as long as the waveform lives.
-/

namespace Ondas.Query

/-- The compositions of an open waveform, with the position of each list of parts. -/
structure Registry where
  source : Nat
  encodings : List Encoding
  definitions : List Definition
  indices : List Signal → Option Nat

/-- The width of the composition of some parts. -/
def totalWidth (parts : List Signal) : Nat := (parts.map fun part => part.width.getD 0).sum

namespace Registry

/-- A waveform without compositions. -/
def new (source : Nat) (encodings : List Encoding) : Registry :=
  ⟨source, encodings, [], fun _ => none⟩

/-- `Hierarchy::computed_signal`. -/
def computedSignal (r : Registry) (index width : Nat) : Signal :=
  ⟨r.source, index, true, .bits width, .bits width, 0⟩

/-- `Waveform::concat`, with what it leaves of the registry. -/
def concat (r : Registry) (parts : List Signal) : Except Error Signal × Registry :=
  if parts = [] then (.error (.invalidComposition .empty), r)
  else
    match partWidths r.source r.encodings r.definitions 0 0 parts with
    | .error e => (.error e, r)
    | .ok width =>
      match parts with
      | [part] => (.ok part, r)
      | parts =>
        match r.indices parts with
        | some index => (.ok (r.computedSignal index width), r)
        | none =>
          let index := r.definitions.length
          (.ok (r.computedSignal index width),
            { r with
              indices := fun other => if other = parts then some index else r.indices other
              definitions := r.definitions ++ [⟨parts, width⟩] })

/-- The results of calls, and what they leave of the registry. -/
def run : List (List Signal) → Registry → List (Except Error Signal) × Registry
  | [], r => ([], r)
  | parts :: calls, r =>
    match r.concat parts with
    | (result, r) =>
      match run calls r with
      | (results, r) => (result :: results, r)

/-- The handle is valid in this waveform. -/
def Valid (r : Registry) (signal : Signal) : Prop :=
  validate r.source r.encodings r.definitions signal = .ok signal.index

/-- The table names the definitions, whose parts were valid before them and whose widths are the
sums of theirs. -/
structure Sound (r : Registry) : Prop where
  operands : ∀ i d, r.definitions[i]? = some d →
    ∀ part ∈ d.parts, Operand r.source r.encodings (r.definitions.take i) part
  widths : ∀ (i : Nat) (d : Definition), r.definitions[i]? = some d →
    d.width = totalWidth d.parts ∧ d.width < 2 ^ 32 ∧ 2 ≤ d.parts.length
  indices : ∀ parts i, r.indices parts = some i ↔ ∃ width, r.definitions[i]? = some ⟨parts, width⟩

/-- A later registry of the same waveform. -/
structure Extends (r r' : Registry) : Prop where
  source : r'.source = r.source
  encodings : r'.encodings = r.encodings
  definitions : r.definitions <+: r'.definitions

section
variable {r r' r'' : Registry} {signal : Signal} {parts : List Signal}

theorem Extends.refl (r : Registry) : r.Extends r := ⟨rfl, rfl, List.prefix_rfl⟩

theorem Extends.trans (h : r.Extends r') (h' : r'.Extends r'') : r.Extends r'' :=
  ⟨h'.source.trans h.source, h'.encodings.trans h.encodings, h.definitions.trans h'.definitions⟩

/-- A definition stays where it is. -/
theorem Extends.definition (h : r.Extends r') {i : Nat} {d : Definition}
    (hd : r.definitions[i]? = some d) : r'.definitions[i]? = some d := by
  obtain ⟨more, hmore⟩ := h.definitions
  rw [← hmore]
  exact Library.getElem?_append_of_some hd

/-- A valid handle stays valid. -/
theorem Extends.valid (h : r.Extends r') (hvalid : r.Valid signal) : r'.Valid signal := by
  obtain ⟨-, hsource, hencoding, hin⟩ := validateEncoding_ok hvalid
  have hencoding' : encodingOf r'.encodings r'.definitions signal = some signal.baseEncoding := by
    unfold encodingOf at hencoding ⊢
    split at hencoding
    next hc =>
      obtain ⟨d, hd, hwidth⟩ := Option.map_eq_some_iff.1 hencoding
      rw [if_pos hc, h.definition hd, Option.map_some, hwidth]
    next hc => rw [if_neg hc, h.encodings, hencoding]
  unfold Valid Query.validate validateEncoding
  rw [hencoding', h.source, hsource, hin]
  simp

/-- A sound registry is a waveform. -/
def waveform (r : Registry) (h : r.Sound) : Waveform :=
  ⟨r.source, r.encodings, r.definitions, none, h.operands⟩

theorem sound_new (source : Nat) (encodings : List Encoding) : (new source encodings).Sound :=
  ⟨nofun, nofun, fun parts i => ⟨nofun, fun ⟨_, h⟩ => by cases h⟩⟩

end

end Registry

/-- The widths of parts add up within `u32`. -/
theorem partWidths_sum {source part width total : Nat} {encodings : List Encoding}
    {definitions : List Definition} {parts : List Signal}
    (h : partWidths source encodings definitions part width parts = .ok total) :
    total = width + totalWidth parts ∧ (parts ≠ [] → total < 2 ^ 32) := by
  induction parts generalizing part width with
  | nil => cases h; exact ⟨rfl, fun hne => absurd rfl hne⟩
  | cons signal parts ih =>
    unfold partWidths at h
    split at h
    · cases h
    next w hw =>
    have hwidth : signal.width = some w := by
      unfold partWidth at hw
      split at hw
      · cases hw
      split at hw
      · cases hw
      split at hw
      · cases hw
      · cases hw
      · cases hw; assumption
    split at h
    next hlt =>
      obtain ⟨htotal, hbound⟩ := ih h
      rw [totalWidth, List.map_cons, List.sum_cons, hwidth, Option.getD_some]
      refine ⟨by rw [htotal, totalWidth]; omega, fun _ => ?_⟩
      cases parts with
      | nil => cases h; exact hlt
      | cons => exact hbound nofun
    · cases h

namespace Registry

section
variable {r r' : Registry} {signal : Signal} {parts : List Signal}

/-- A new definition keeps the registry sound. -/
theorem Sound.register (h : r.Sound) {width : Nat} (hnew : r.indices parts = none)
    (hparts : partWidths r.source r.encodings r.definitions 0 0 parts = .ok width)
    (hlength : 2 ≤ parts.length) :
    ({ r with
      indices := fun other => if other = parts then some r.definitions.length else r.indices other
      definitions := r.definitions ++ [⟨parts, width⟩] } : Registry).Sound := by
  refine ⟨((r.waveform h).register parts width (partWidths_ok hparts)).operands, ?_, ?_⟩
  · intro i d hd
    rcases Library.getElem?_concat_iff.1 hd with hd | ⟨-, rfl⟩
    · exact h.widths i d hd
    · obtain ⟨htotal, hbound⟩ := partWidths_sum hparts
      have hne : parts ≠ [] := by rintro rfl; cases hlength
      exact ⟨by rw [htotal, Nat.zero_add], hbound hne, hlength⟩
  · intro other i
    dsimp only
    simp only [Library.getElem?_concat_iff, Definition.mk.injEq, exists_or]
    split
    next heq =>
      subst heq
      constructor
      · intro hi
        cases hi
        exact .inr ⟨width, rfl, rfl, rfl⟩
      · rintro (hi | ⟨-, hi, -, -⟩)
        · rw [(h.indices _ i).2 hi] at hnew
          cases hnew
        · rw [hi]
    next hne =>
      rw [h.indices other i]
      constructor
      · exact .inl
      · rintro (hi | ⟨-, -, heq, -⟩)
        · exact hi
        · exact absurd heq.symm hne

/-- What a call does: it fails and changes nothing, answers its only part, or answers the handle of
the definition of its parts. -/
theorem concat_cases (h : r.Sound) {result : Except Error Signal}
    (hrun : r.concat parts = (result, r')) :
    (r' = r ∧ ((∃ e, result = .error e) ∨ ∃ part, parts = [part] ∧ result = .ok part ∧
      r.Valid part ∧ part.width = some (totalWidth parts))) ∨
    (r.Extends r' ∧ r'.Sound ∧ 2 ≤ parts.length ∧ ∃ index width,
      result = .ok (r.computedSignal index width) ∧
      r'.definitions[index]? = some ⟨parts, width⟩) := by
  unfold concat at hrun
  split at hrun
  · cases hrun
    exact .inl ⟨rfl, .inl ⟨_, rfl⟩⟩
  next hne =>
  split at hrun
  · cases hrun
    exact .inl ⟨rfl, .inl ⟨_, rfl⟩⟩
  next width hwidth =>
  split at hrun
  next part =>
    cases hrun
    have hoperand := partWidths_ok hwidth part (.head _)
    obtain ⟨w, hw⟩ := hoperand.bits
    refine .inl ⟨rfl, .inr ⟨part, rfl, rfl, hoperand.valid, ?_⟩⟩
    simp [totalWidth, Signal.width, hw]
  next hmany =>
    have hlength : 2 ≤ parts.length := by
      cases parts with
      | nil => exact absurd rfl hne
      | cons part rest =>
        cases rest with
        | nil => exact absurd rfl (hmany part)
        | cons => exact Nat.le_add_left 2 _
    split at hrun
    next index hindex =>
      cases hrun
      obtain ⟨width', hd⟩ := (h.indices parts index).1 hindex
      have hsame : width' = width :=
        (h.widths index _ hd).1.trans (by rw [(partWidths_sum hwidth).1, Nat.zero_add])
      exact .inr ⟨.refl r, h, hlength, index, width, rfl, hsame ▸ hd⟩
    next hnew =>
      cases hrun
      refine .inr ⟨⟨rfl, rfl, List.prefix_append _ _⟩, h.register hnew hwidth hlength,
        hlength, _, width,
        rfl, List.getElem?_concat_length⟩

/-- The table finds the definition of a list of parts. -/
theorem Sound.findIdx?_eq (h : r.Sound) (parts : List Signal) :
    (r.definitions.findIdx? fun d => d.parts = parts) = r.indices parts := by
  cases hi : r.indices parts with
  | none =>
    rw [List.findIdx?_eq_none_iff]
    intro d hd
    obtain ⟨i, hget⟩ := List.getElem?_of_mem hd
    refine decide_eq_false fun heq => ?_
    rw [(h.indices parts i).2 ⟨d.width, heq ▸ hget⟩] at hi
    cases hi
  | some i =>
    obtain ⟨width, hd⟩ := (h.indices parts i).1 hi
    obtain ⟨hlt, hget⟩ := List.getElem?_eq_some_iff.1 hd
    rw [List.findIdx?_eq_some_iff_getElem]
    refine ⟨hlt, by rw [hget]; exact decide_eq_true rfl, fun j hj => ?_⟩
    have hjlt : j < r.definitions.length := hj.trans hlt
    intro heq
    have hparts : r.definitions[j].parts = parts := of_decide_eq_true heq
    have hj' := (h.indices parts j).2 ⟨r.definitions[j].width, by
      rw [← hparts]; exact List.getElem?_eq_getElem hjlt⟩
    rw [hi] at hj'
    cases hj'
    exact lt_irrefl _ hj

/-- A call does what `Waveform.concat` says of the waveform. -/
theorem concat_waveform (h : r.Sound) {result : Except Error Signal}
    (hrun : r.concat parts = (result, r')) (h' : r'.Sound) :
    (r.waveform h).concat parts = result.map fun handle => (r'.waveform h', handle) := by
  unfold concat at hrun
  match parts with
  | [] => cases hrun; rfl
  | [part] =>
    rw [if_neg (by simp)] at hrun
    unfold Waveform.concat
    dsimp only [waveform]
    split at hrun
    next e he =>
      cases hrun
      try rw [he]
      rfl
    next width hwidth =>
      cases hrun
      try rw [hwidth]
      rfl
  | first :: second :: rest =>
    rw [if_neg (by simp)] at hrun
    unfold Waveform.concat
    dsimp only [waveform]
    split at hrun
    next e he =>
      cases hrun
      split
      next e' he' => rw [he] at he'; cases he'; rfl
      next width hwidth => rw [he] at hwidth; cases hwidth
    next width hwidth =>
      split
      next e' he' => rw [hwidth] at he'; cases he'
      next width' hwidth' =>
      rw [hwidth, Except.ok.injEq] at hwidth'
      subst hwidth'
      rw [h.findIdx?_eq]
      dsimp only at hrun
      split at hrun
      next index hindex =>
        cases hrun
        try rw [hindex]
        rfl
      next hnew =>
        cases hrun
        try rw [hnew]
        rfl

/-- Calls keep the registry sound, and only append to it. -/
theorem run_extends (h : r.Sound) (calls : List (List Signal)) :
    (run calls r).2.Sound ∧ r.Extends (run calls r).2 := by
  induction calls generalizing r with
  | nil => exact ⟨h, .refl r⟩
  | cons parts calls ih =>
    rcases hcall : r.concat parts with ⟨result, r₁⟩
    have hnext : r₁.Sound ∧ r.Extends r₁ := by
      rcases concat_cases h hcall with ⟨rfl, -⟩ | ⟨hextends, hsound, -⟩
      · exact ⟨h, .refl _⟩
      · exact ⟨hsound, hextends⟩
    obtain ⟨hsound, hextends⟩ := ih hnext.1
    rw [run, hcall]
    exact ⟨hsound, hnext.2.trans hextends⟩

/-- The handle of a definition is valid. -/
theorem valid_computed {index width : Nat} (hd : r.definitions[index]? = some ⟨parts, width⟩) :
    r.Valid (r.computedSignal index width) := by
  have hencoding : encodingOf r.encodings r.definitions (r.computedSignal index width) =
      some (r.computedSignal index width).baseEncoding := by
    simp [encodingOf, computedSignal, hd]
  unfold Valid Query.validate validateEncoding
  rw [hencoding, if_pos]
  simp [computedSignal, inBase, Signal.base]

/-- A slice of a valid handle is a valid handle of the same history or composition. -/
theorem Valid.slice {t : Signal} {msb lsb : Nat} (hs : r.Sound)
    (hu32 : ∀ width, .bits width ∈ r.encodings → width < 2 ^ 32) (h : r.Valid signal)
    (ht : signal.slice msb lsb = .ok t) :
    r.Valid t ∧ t.index = signal.index ∧ t.computed = signal.computed ∧ t.base = signal.base := by
  obtain ⟨-, -, hencoding, hin⟩ := validateEncoding_ok h
  cases hwidth : signal.encoding with
  | real | string | event | unsupported => simp [Signal.slice, Signal.width, hwidth] at ht
  | bits width =>
    obtain ⟨hle, hlt⟩ := Signal.slice_ok hwidth ht
    obtain ⟨base, hbase⟩ : ∃ base, signal.baseEncoding = .bits base := by
      rcases inBase_cases hin with ⟨base, -, hbase, -⟩ | ⟨hsame, -⟩
      · exact ⟨base, hbase⟩
      · exact ⟨width, hsame ▸ hwidth⟩
    have hbound : base < 2 ^ 32 := by
      rw [hbase, encodingOf] at hencoding
      split at hencoding
      · obtain ⟨d, hd, heq⟩ := Option.map_eq_some_iff.1 hencoding
        cases heq
        exact (hs.widths _ d hd).2.1
      · exact hu32 base (List.mem_of_getElem? hencoding)
    have hvalid : (r.waveform hs).Valid signal := h
    rw [hvalid.slice_eq hbase hbound hwidth hle hlt] at ht
    cases ht
    exact ⟨hvalid.sliced hbase hwidth hle hlt, rfl, rfl, rfl⟩

end

end Registry

/-- A handle made from another one by slicing, any number of times. -/
inductive Slices (s : Signal) : Signal → Prop
  | refl : Slices s s
  | slice {t u : Signal} {msb lsb : Nat} : Slices s t → t.slice msb lsb = .ok u → Slices s u

/-- Slices of a valid handle are valid handles of the same history or composition. -/
theorem Slices.valid {r : Registry} {s t : Signal} (hs : r.Sound)
    (hu32 : ∀ width, .bits width ∈ r.encodings → width < 2 ^ 32) (hvalid : r.Valid s)
    (h : Slices s t) :
    r.Valid t ∧ t.index = s.index ∧ t.computed = s.computed ∧ t.base = s.base := by
  induction h with
  | refl => exact ⟨hvalid, rfl, rfl, rfl⟩
  | slice _ hslice ih =>
    obtain ⟨hv, hindex, hcomputed, hbase⟩ := ih
    obtain ⟨hv', hindex', hcomputed', hbase'⟩ := hv.slice hs hu32 hslice
    exact ⟨hv', hindex'.trans hindex, hcomputed'.trans hcomputed, hbase'.trans hbase⟩

/-- A valid composition or slice of one names a definition. -/
theorem Registry.Valid.definition {r : Registry} {signal : Signal} (h : r.Valid signal)
    (hc : signal.computed = true) : ∃ d, r.definitions[signal.index]? = some d := by
  have hencoding := (validateEncoding_ok h).2.2.1
  rw [encodingOf, if_pos hc] at hencoding
  obtain ⟨d, hd, -⟩ := Option.map_eq_some_iff.1 hencoding
  exact ⟨d, hd⟩

/-- Two definitions of a sound registry are the same when their parts are. -/
theorem Registry.Sound.unique {r : Registry} (h : r.Sound) {i j w w' : Nat} {parts : List Signal}
    (hi : r.definitions[i]? = some ⟨parts, w⟩) (hj : r.definitions[j]? = some ⟨parts, w'⟩) :
    i = j ∧ w = w' := by
  have hij : some i = some j :=
    ((h.indices parts i).2 ⟨w, hi⟩).symm.trans ((h.indices parts j).2 ⟨w', hj⟩)
  cases hij
  rw [hi] at hj
  cases hj
  exact ⟨rfl, rfl⟩

/-- **The registry of compositions.** After any calls, a call fails and changes nothing, or answers
a handle with the width of its parts together: its only part, or a handle that is equal to that of a
later call exactly when the parts are. Whatever is registered later, the handle and its slices are
valid and mean the same definition; a definition refers to source histories and to earlier
definitions; and no handle of another waveform is valid. -/
theorem concat_registers (source : Nat) (encodings : List Encoding)
    (hu32 : ∀ width, .bits width ∈ encodings → width < 2 ^ 32)
    (before later : List (List Signal)) (parts : List Signal) :
    let r := (Registry.run before (.new source encodings)).2
    let call := r.concat parts
    let final := (Registry.run later call.2).2
    (∀ e, call.1 = .error e → call.2 = r) ∧
    (∀ handle, call.1 = .ok handle →
      (∀ part, parts = [part] → handle = part) ∧
      handle.width = some (totalWidth parts) ∧ handle.source = source ∧
      (2 ≤ parts.length → final.definitions[handle.index]? = some ⟨parts, totalWidth parts⟩ ∧
        ∀ parts' handle', 2 ≤ parts'.length → (final.concat parts').1 = .ok handle' →
          (handle = handle' ↔ parts = parts')) ∧
      ∀ slice, Slices handle slice → final.Valid slice ∧ slice.base = handle.base ∧
        (slice.computed = true → ∃ d, call.2.definitions[slice.index]? = some d ∧
          final.definitions[slice.index]? = some d)) ∧
    (∀ (i : Nat) (d : Definition), final.definitions[i]? = some d → ∀ part ∈ d.parts,
      if part.computed then part.index < i else part.index < encodings.length) ∧
    (∀ signal : Signal, signal.source ≠ source →
      validate final.source final.encodings final.definitions signal =
        .error (.invalidSignal signal)) := by
  intro r call final
  obtain ⟨hr, hnew⟩ := Registry.run_extends (Registry.sound_new source encodings) before
  have hcall : r.concat parts = (call.1, call.2) := rfl
  have hnext : call.2.Sound ∧ r.Extends call.2 := by
    rcases Registry.concat_cases hr hcall with ⟨heq, -⟩ | ⟨hextends, hsound, -⟩
    · rw [heq]; exact ⟨hr, .refl _⟩
    · exact ⟨hsound, hextends⟩
  obtain ⟨hfinal, hlater⟩ := Registry.run_extends hnext.1 later
  have hsource : final.source = source := hlater.source.trans (hnext.2.source.trans hnew.source)
  have hencodings : final.encodings = encodings :=
    hlater.encodings.trans (hnext.2.encodings.trans hnew.encodings)
  refine ⟨fun e he => ?_, fun handle hok => ?_, fun i d hd part hpart => ?_, fun signal hne => ?_⟩
  · rcases Registry.concat_cases hr hcall with ⟨heq, -⟩ | ⟨-, -, -, index, width, hok, -⟩
    · exact heq
    · rw [he] at hok; cases hok
  · -- The handle is valid after its call, and its definition is that of its parts.
    have hhandle : call.2.Valid handle ∧ (∀ part, parts = [part] → handle = part) ∧
        handle.width = some (totalWidth parts) ∧ (2 ≤ parts.length →
          handle = call.2.computedSignal handle.index (totalWidth parts) ∧
            call.2.definitions[handle.index]? = some ⟨parts, totalWidth parts⟩) := by
      rcases Registry.concat_cases hr hcall with
        ⟨hsame, ⟨e, he⟩ | ⟨part, rfl, hpart, hvalid, hwidth⟩⟩ |
          ⟨hextends, hsound, hlength, index, width, hmade, hd⟩
      · rw [hok] at he; cases he
      · rw [hok] at hpart
        cases hpart
        refine ⟨hsame ▸ hvalid, fun other heq => by cases heq; rfl, hwidth, fun hlength => ?_⟩
        simp at hlength
      · rw [hok] at hmade
        cases hmade
        have htotal : width = totalWidth parts := (hsound.widths _ _ hd).1
        subst htotal
        have hsame : r.computedSignal index (totalWidth parts) =
            call.2.computedSignal index (totalWidth parts) := by
          rw [Registry.computedSignal, Registry.computedSignal, hextends.source]
        rw [hsame]
        refine ⟨Registry.valid_computed hd, fun part heq => ?_, rfl, fun _ => ⟨rfl, hd⟩⟩
        rw [heq] at hlength
        simp at hlength
    obtain ⟨hvalid, hone, hwidth, hmany⟩ := hhandle
    refine ⟨hone, hwidth, ?_, fun hlength => ?_, fun slice hslice => ?_⟩
    · exact (validateEncoding_ok hvalid).2.1.trans (hnext.2.source.trans hnew.source)
    · obtain ⟨hmade, hd⟩ := hmany hlength
      have hd' := hlater.definition hd
      refine ⟨hd', fun parts' handle' hlength' hok' => ?_⟩
      have hcall' : final.concat parts' = (.ok handle', (final.concat parts').2) := by rw [← hok']
      rcases Registry.concat_cases hfinal hcall' with
        ⟨-, ⟨e, he⟩ | ⟨part, rfl, -⟩⟩ | ⟨hextends, hsound, -, index, width, hmade', hd''⟩
      · cases he
      · simp at hlength'
      · cases hmade'
        have hsource' : call.2.source = final.source := hlater.source.symm
        constructor
        · intro heq
          have hindex : handle.index = index := congrArg Signal.index heq
          rw [hindex] at hd'
          rw [hextends.definition hd'] at hd''
          cases hd''
          rfl
        · rintro rfl
          obtain ⟨hindex, hsame⟩ := hsound.unique (hextends.definition hd') hd''
          rw [hmade, ← hindex, ← hsame, Registry.computedSignal, Registry.computedSignal, hsource']
    · obtain ⟨hslice', hindex, hcomputed, hbase⟩ := hslice.valid hfinal
        (by rwa [hencodings]) (hlater.valid hvalid)
      refine ⟨hslice', hbase, fun hc => ?_⟩
      obtain ⟨d, hd⟩ := hvalid.definition (hcomputed ▸ hc)
      rw [hindex]
      exact ⟨d, hd, hlater.definition hd⟩
  · have hoperand := hfinal.operands i d hd part hpart
    cases hc : part.computed with
    | true =>
      have hlt := hoperand.index_lt hc
      rw [List.length_take] at hlt
      rw [if_pos rfl]
      omega
    | false =>
      have hencoding := (validateEncoding_ok hoperand.valid).2.2.1
      rw [encodingOf, hc, if_neg (by decide), hencodings] at hencoding
      rw [if_neg (by decide)]
      exact (List.getElem?_eq_some_iff.1 hencoding).1
  · rw [validate, validateEncoding, if_neg]
    rw [hsource]
    simp [hne]

/-- A byte and a nibble of it, composed a second time and then once more the other way round. The
second handle is that of the first composition, which stays registered, and the last one is another
handle. -/
theorem concat_registers_nibble :
    let byte : Signal := ⟨1, 0, false, .bits 8, .bits 8, 0⟩
    let nibble : Signal := ⟨1, 0, false, .bits 8, .bits 4, 2⟩
    let r := (Registry.run [[byte, nibble]] (.new 1 [.bits 8])).2
    let handle := r.computedSignal 0 12
    let final := (Registry.run [[nibble, byte]] (r.concat [byte, nibble]).2).2
    let other := final.computedSignal 1 12
    (r.concat [byte, nibble]).1 = .ok handle ∧ handle.width = some 12 ∧ handle.source = 1 ∧
      final.definitions = [⟨[byte, nibble], 12⟩, ⟨[nibble, byte], 12⟩] ∧
      (final.concat [byte, nibble]).1 = .ok handle ∧
      (final.concat [nibble, byte]).1 = .ok other ∧ handle ≠ other ∧ final.Valid handle := by
  intro byte nibble r handle final other
  have hok : (r.concat [byte, nibble]).1 = .ok handle := by decide
  have hagain : (final.concat [byte, nibble]).1 = .ok handle := by decide
  have hother : (final.concat [nibble, byte]).1 = .ok other := by decide
  obtain ⟨-, hwidth, hsource, hregistered, hvalid⟩ := (concat_registers 1 [.bits 8] (by simp)
    [[byte, nibble]] [[nibble, byte]] [byte, nibble]).2.1 _ hok
  have hne : handle ≠ other := fun heq =>
    absurd (((hregistered (Nat.le_refl 2)).2 [nibble, byte] other (Nat.le_refl 2) hother).1 heq)
      (by decide)
  exact ⟨hok, hwidth, hsource, by decide, hagain, hother, hne, (hvalid handle .refl).1⟩

end Ondas.Query
