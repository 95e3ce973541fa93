import Mathlib.Logic.Relation
import Ondas.Hierarchy.Lookup

/-!
# Signal selectors

A selector is a path, or a path and a trailing `[msb:lsb]`. `Hierarchy.signal` looks the whole text
up first. Only when it is no path, or no variable has it, `selector` splits a slice off at the last
bracket; the text before it must be a path of its own.

`Inside` says that a bracket lies in a quoted or escaped component. What comes before such a bracket
is no path (`Inside.not_path`), so it never begins a slice.
-/

namespace Ondas

open HierarchyPath

/-! ## Reading -/

/-- `str::rfind` of a character: what comes before and after its last occurrence. -/
def splitLast (c : Char) : Text → Option (Text × Text)
  | [] => none
  | d :: text =>
    match splitLast c text with
    | some (before, after) => some (d :: before, after)
    | none => if d = c then some ([], text) else none

/-- `str::split_once`: what comes before and after the first occurrence of a character. -/
def splitOnce (c : Char) : Text → Option (Text × Text)
  | [] => none
  | d :: text =>
    if d = c then some ([], text) else (splitOnce c text).map fun r => (d :: r.1, r.2)

/-- A slice index at a byte offset. -/
def sliceIndex (value : Text) (offset : Nat) : Except PathError Nat :=
  if value.isEmpty || !value.all Char.isDigit then
    .error ⟨offset, "slice index must be an unsigned decimal integer"⟩
  else if Nat.ofDigitChars 10 value 0 < 2 ^ 32 then .ok (Nat.ofDigitChars 10 value 0)
  else .error ⟨offset, "slice index exceeds u32"⟩

/-- `selector`: the path and the bounds of a text with a trailing slice. -/
def selector (json : JsonStrings) (text : Text) :
    Except PathError (Option (HierarchyPath × Nat × Nat)) :=
  if text.getLast? = some ']' then
    match splitLast '[' text.dropLast with
    | none => .ok none
    | some (before, bounds) =>
      match splitOnce ':' bounds with
      | none => .ok none
      | some (msb, lsb) =>
        -- Parsing the text before the bracket ensures that it is outside a quoted or escaped name.
        match parse json before with
        | .error _ => .ok none
        | .ok path =>
          match sliceIndex msb (utf8Len before + 1) with
          | .error e => .error e
          | .ok m =>
            match sliceIndex lsb (utf8Len before + utf8Len msb + 2) with
            | .error e => .error e
            | .ok l => .ok (some (path, m, l))
  else .ok none

namespace Hierarchy

/-- `Hierarchy::signal_at`. -/
def signalAt (h : Hierarchy) (index : Nat) : Signal :=
  let encoding := (h.encodings[index]?).getD .unsupported
  { source := h.source, index := index, computed := false, baseEncoding := encoding,
    encoding := encoding, lsb := 0 }

/-- `Variable::signal`. -/
def signalOf (h : Hierarchy) (v : Nat) : Option Signal :=
  match h.vars[v]? with
  | none => none
  | some data => data.signal.map h.signalAt

/-- `Hierarchy::signal_path`. -/
def signalPath (h : Hierarchy) (sort : Library.Sorting Nat Text) (path : HierarchyPath) :
    Except LookupError Signal :=
  match h.variablePath sort path with
  | .error e => .error e
  | .ok v =>
    match h.signalOf v with
    | none => .error (.noSignal path)
    | some signal => .ok signal

/-- The lookup of a whole text as an exact variable path. -/
def exactSignal (h : Hierarchy) (sort : Library.Sorting Nat Text) (json : JsonStrings)
    (text : Text) : Except LookupError Signal :=
  match parse json text with
  | .error e => .error (.invalidPath e)
  | .ok path => h.signalPath sort path

/-- The lookup of a text with a trailing slice, or the outcome of the exact lookup. -/
def slicedSignal (h : Hierarchy) (sort : Library.Sorting Nat Text) (json : JsonStrings)
    (text : Text) (exact : Except LookupError Signal) : Except LookupError Signal :=
  match selector json text with
  | .error e => .error (.invalidPath e)
  | .ok none => exact
  | .ok (some (path, msb, lsb)) =>
    match h.signalPath sort path with
    | .error e => .error e
    | .ok signal =>
      match signal.slice msb lsb with
      | .error e => .error (.invalidSlice e)
      | .ok sliced => .ok sliced

/-- `Hierarchy::signal`. -/
def signal (h : Hierarchy) (sort : Library.Sorting Nat Text) (json : JsonStrings) (text : Text) :
    Except LookupError Signal :=
  match h.exactSignal sort json text with
  | .error (.notFound path) => h.slicedSignal sort json text (.error (.notFound path))
  | .error (.invalidPath e) => h.slicedSignal sort json text (.error (.invalidPath e))
  | exact => exact

end Hierarchy

/-! ## The text of a slice -/

/-- `[msb:lsb]`. -/
def sliceText (msb lsb : UInt32) : Text :=
  '[' :: (Nat.toDigits 10 msb.toNat ++ ':' :: (Nat.toDigits 10 lsb.toNat ++ [']']))

section
variable {c : Char} {before after text : Text}

/-- A text without the character is not split. -/
theorem splitLast_eq_none (h : c ∉ text) : splitLast c text = none := by
  induction text with
  | nil => rfl
  | cons d text ih =>
    rw [List.mem_cons, not_or] at h
    rw [splitLast, ih h.2]
    exact if_neg (Ne.symm h.1)

/-- The last of several characters splits a text when the rest has none. -/
theorem splitLast_append (h : c ∉ after) :
    splitLast c (before ++ c :: after) = some (before, after) := by
  induction before with
  | nil => rw [List.nil_append, splitLast, splitLast_eq_none h, if_pos rfl]
  | cons d before ih => rw [List.cons_append, splitLast, ih]

/-- What is split is put together again. -/
theorem splitLast_eq (h : splitLast c text = some (before, after)) :
    text = before ++ c :: after := by
  induction text generalizing before with
  | nil => cases h
  | cons d text ih =>
    rw [splitLast] at h
    split at h
    next before' after' hsplit =>
      cases h
      rw [ih hsplit]
      rfl
    next =>
      split at h
      next heq =>
        cases h
        rw [heq]
        rfl
      next => cases h

/-- The first of several characters splits a text when the start has none. -/
theorem splitOnce_append (h : c ∉ before) :
    splitOnce c (before ++ c :: after) = some (before, after) := by
  induction before with
  | nil => rw [List.nil_append, splitOnce, if_pos rfl]
  | cons d before ih =>
    rw [List.mem_cons, not_or] at h
    rw [List.cons_append, splitOnce, if_neg (Ne.symm h.1), ih h.2]
    rfl

/-- A character that is no digit is not in a decimal number. -/
theorem not_mem_toDigits {n : Nat} (h : c.isDigit = false) : c ∉ Nat.toDigits 10 n := by
  intro hmem
  have := Nat.isDigit_of_mem_toDigits (by decide) (by decide) hmem
  rw [h] at this
  cases this

/-- A decimal number is read as a slice index. -/
theorem sliceIndex_toDigits (n : UInt32) (offset : Nat) :
    sliceIndex (Nat.toDigits 10 n.toNat) offset = .ok n.toNat := by
  have hne : (Nat.toDigits 10 n.toNat).isEmpty = false := by
    simp
  have hdigits : (Nat.toDigits 10 n.toNat).all Char.isDigit = true :=
    List.all_eq_true.2 fun c hc => Nat.isDigit_of_mem_toDigits (by decide) (by decide) hc
  rw [sliceIndex, hne, hdigits, Nat.ofDigitChars_ten_toDigits, if_neg (by decide),
    if_pos n.toNat_lt]

end

/-- A path followed by a slice is read as that path and slice. -/
theorem selector_sliceText {json : JsonStrings} {text : Text} {path : HierarchyPath}
    (hpath : parse json text = .ok path) (msb lsb : UInt32) :
    selector json (text ++ sliceText msb lsb) = .ok (some (path, msb.toNat, lsb.toNat)) := by
  have hshape : text ++ sliceText msb lsb =
      (text ++ '[' :: (Nat.toDigits 10 msb.toNat ++ ':' :: Nat.toDigits 10 lsb.toNat)) ++
      [']'] := by
    simp [sliceText]
  have hbracket : '[' ∉ Nat.toDigits 10 msb.toNat ++ ':' :: Nat.toDigits 10 lsb.toNat := by
    rw [List.mem_append, List.mem_cons]
    rintro (h | h | h)
    · exact not_mem_toDigits rfl h
    · cases h
    · exact not_mem_toDigits rfl h
  rw [selector, hshape, List.getLast?_concat, if_pos rfl, List.dropLast_concat,
    splitLast_append hbracket]
  dsimp only
  rw [splitOnce_append (not_mem_toDigits rfl)]
  dsimp only
  rw [hpath]
  dsimp only
  rw [sliceIndex_toDigits, sliceIndex_toDigits]

/-! ## Brackets inside a component -/

/-- The reader goes from the beginning of a component to the beginning of the next one. -/
def Next (json : JsonStrings) (here after : Cursor) : Prop :=
  ∃ name offset rest, component json here = .ok (name, ⟨offset, '.' :: rest⟩) ∧ rest ≠ [] ∧
    after = ⟨offset + 1, rest⟩

/-- The bracket between two parts of a text lies inside a quoted or escaped component: the reader
begins one before the bracket and has not ended it there. -/
def Inside (json : JsonStrings) (before after : Text) : Prop :=
  ∃ here opened, Relation.ReflTransGen (Next json) ⟨0, before ++ '[' :: after⟩ here ∧
    here.rest = opened ++ '[' :: after ∧
    (opened.head? = some '"' ∨ opened.head? = some '\\') ∧
    ∀ name next, component json here = .ok (name, next) → next.rest.length ≤ after.length

section
variable {json : JsonStrings} {before after text : Text} {offset : Nat}

/-- A component and its separator take some of the text. -/
theorem Next.length_lt {here next : Cursor} (h : Next json here next) :
    next.rest.length < here.rest.length := by
  obtain ⟨name, offset, rest, hcomponent, -, rfl⟩ := h
  exact length_component_le hcomponent

/-- Some components never give back what was taken. -/
theorem reach_length_le {here next : Cursor} (h : Relation.ReflTransGen (Next json) here next) :
    next.rest.length ≤ here.rest.length := by
  induction h with
  | refl => exact Nat.le_refl _
  | tail _ hstep ih => exact Nat.le_trans (Nat.le_of_lt hstep.length_lt) ih

/-- A name that ends within a text does not depend on what follows the text. -/
theorem escapedName_append {name read : Text} {next : Cursor} (more : Text)
    (h : escapedName read offset text = .ok (name, next)) (hrest : next.rest ≠ []) :
    escapedName read offset (text ++ more) = .ok (name, ⟨next.offset, next.rest ++ more⟩) := by
  fun_induction escapedName read offset text with
  | case1 => cases h; exact absurd rfl hrest
  | case2 read offset c text hc =>
    cases h
    rw [List.cons_append, escapedName, if_pos hc]
  | case3 => cases h
  | case4 read offset c text hc hbad ih =>
    rw [List.cons_append, escapedName, if_neg hc, if_neg hbad]
    exact ih h

/-- A bare name that ends before the end of a text ends there in a longer one too. -/
theorem bareName_append {name read : Text} {next : Cursor} (more : Text)
    (h : bareName read offset text = .ok (name, next)) (hrest : next.rest ≠ []) :
    bareName read offset (text ++ more) = .ok (name, ⟨next.offset, next.rest ++ more⟩) := by
  fun_induction bareName read offset text with
  | case1 => cases h; exact absurd rfl hrest
  | case2 read offset text =>
    cases h
    rw [List.cons_append, bareName, if_pos rfl]
  | case3 => cases h
  | case4 read offset c text hdot hbad ih =>
    rw [List.cons_append, bareName, if_neg hdot, if_neg hbad]
    exact ih h

/-- A bare name that reaches the end of a text goes on in what follows it. -/
theorem bareName_across {name read : Text} {next : Cursor} (more : Text)
    (h : bareName read offset text = .ok (name, next)) (hrest : next.rest = []) :
    bareName read offset (text ++ more) = bareName name next.offset more := by
  fun_induction bareName read offset text with
  | case1 => cases h; rfl
  | case2 => cases h; cases hrest
  | case3 => cases h
  | case4 read offset c text hdot hbad ih =>
    rw [List.cons_append, bareName, if_neg hdot, if_neg hbad]
    exact ih h

/-- Whitespace before a bracket is skipped, whatever follows the bracket. -/
theorem skipWhitespace_append :
    skipWhitespace offset (text ++ '[' :: after) =
      ⟨(skipWhitespace offset text).offset, (skipWhitespace offset text).rest ++ '[' :: after⟩ := by
  fun_induction skipWhitespace offset text with
  | case1 offset => rw [List.nil_append, skipWhitespace, if_neg (by decide)]
  | case2 offset c text hc ih => rw [List.cons_append, skipWhitespace, if_pos hc, ih]
  | case3 offset c text hc => rw [List.cons_append, skipWhitespace, if_neg hc]

/-- A component read before a bracket is also read with the bracket after it, or it is bare and
goes on past the bracket. -/
theorem component_append (hjson : json.Lawful) {name : Text} {next : Cursor}
    (h : component json ⟨offset, text⟩ = .ok (name, next)) (hne : text ≠ []) :
    component json ⟨offset, text ++ '[' :: after⟩ =
      .ok (name, ⟨next.offset, next.rest ++ '[' :: after⟩) ∨
      (text.head? ≠ some '"' ∧ text.head? ≠ some '\\' ∧ ∀ name' next',
        component json ⟨offset, text ++ '[' :: after⟩ = .ok (name', next') →
          next'.rest.length ≤ after.length) := by
  obtain ⟨c, text, rfl⟩ := List.exists_cons_of_ne_nil hne
  unfold component at h
  dsimp only at h
  split at h
  next tail heq =>
    cases heq
    left
    unfold quoted at h
    dsimp only at h
    split at h
    · cases h
    next s n hnext =>
      cases h
      obtain ⟨hle, hmore⟩ := hjson.consumes _ _ _ hnext
      show quoted json ⟨offset, '"' :: text ++ '[' :: after⟩ = _
      rw [quoted, hmore ('[' :: after)]
      dsimp only
      rw [dropBytes_append _ hle]
  next tail heq =>
    cases heq
    left
    show escaped (offset + 1) (text ++ '[' :: after) = _
    unfold escaped at h ⊢
    split at h
    · cases h
    next found at_ hname =>
      split at h
      · cases h
      next hfound =>
        split at h
        · cases h
        next hrest =>
          cases h
          rw [escapedName_append _ hname hrest]
          dsimp only
          rw [if_neg hfound, if_neg (by simp), skipWhitespace_append]
  next hquote hslash =>
    have hquote' : c ≠ '"' := fun hc => hquote text (by rw [hc])
    have hslash' : c ≠ '\\' := fun hc => hslash text (by rw [hc])
    have hcomponent : component json ⟨offset, c :: text ++ '[' :: after⟩ =
        bare offset (c :: text ++ '[' :: after) := by
      unfold component
      split
      next tail heq => exact absurd (List.cons.inj heq).1 hquote'
      next tail heq => exact absurd (List.cons.inj heq).1 hslash'
      next => rfl
    rw [hcomponent]
    unfold bare at h ⊢
    split at h
    · cases h
    next found at_ hname =>
      split at h
      · cases h
      next hfound =>
        cases h
        by_cases hrest : next.rest = []
        · refine .inr ⟨by simpa using hquote', by simpa using hslash', fun name' next' h' => ?_⟩
          rw [bareName_across _ hname hrest, bareName, if_neg (by decide), if_neg (by decide)] at h'
          split at h'
          · cases h'
          next found' at' hname' =>
            split at h'
            · cases h'
            · cases h'
              exact length_bareName_le hname'
        · left
          rw [bareName_append _ hname hrest]
          dsimp only
          rw [if_neg hfound]

/-- What comes before a bracket inside a quoted or escaped component is not a path. -/
theorem Inside.not_path (hjson : json.Lawful) (h : Inside json before after)
    (path : HierarchyPath) :
    parse json before ≠ .ok path := by
  obtain ⟨here, opened, hreach, hhere, hopened, hinside⟩ := h
  have hlonger : after.length < here.rest.length := by
    rw [hhere, List.length_append, List.length_cons]
    omega
  have hloop : ∀ start : Cursor, Relation.ReflTransGen (Next json) start here →
      ∀ front, start.rest = front ++ '[' :: after → ∀ read components,
        parseLoop json read ⟨start.offset, front⟩ ≠ .ok components := by
    intro start hreach
    induction hreach using Relation.ReflTransGen.head_induction_on with
    | refl =>
      intro front hfront read components hok
      obtain rfl : front = opened := List.append_cancel_right (hfront.symm.trans hhere)
      have hne : front ≠ [] := by
        rintro rfl
        rcases hopened with h | h <;> cases h
      cases hcomponent : component json ⟨here.offset, front⟩ with
      | error e =>
        rw [parseLoop_error hne hcomponent] at hok
        cases hok
      | ok r =>
        obtain ⟨name, next⟩ := r
        have hhere' : here = ⟨here.offset, front ++ '[' :: after⟩ := by rw [← hhere]
        have hcases : component json ⟨here.offset, front ++ '[' :: after⟩ = _ ∨ _ :=
          component_append hjson hcomponent hne
        rcases hcases with happend | ⟨hquote, hslash, -⟩
        · rw [← hhere'] at happend
          have := hinside _ _ happend
          rw [List.length_append, List.length_cons] at this
          omega
        · rcases hopened with h | h
          · exact hquote h
          · exact hslash h
    | head hstep hrest ih =>
      rename_i start mid
      intro front hfront read components hok
      obtain ⟨name, offset, rest, hcomponent, hne, rfl⟩ := hstep
      have hmid : after.length < rest.length := hlonger.trans_le (reach_length_le hrest)
      have hstart : start = ⟨start.offset, front ++ '[' :: after⟩ := by rw [← hfront]
      have hfront' : front ≠ [] := by
        rintro rfl
        have := length_component_le hcomponent
        rw [hfront] at this
        simp only [List.nil_append, List.length_cons] at this
        omega
      cases hread : component json ⟨start.offset, front⟩ with
      | error e =>
        rw [parseLoop_error hfront' hread] at hok
        cases hok
      | ok r =>
        obtain ⟨name', next⟩ := r
        have hcases : component json ⟨start.offset, front ++ '[' :: after⟩ = _ ∨ _ :=
          component_append hjson hread hfront'
        rcases hcases with happend | ⟨-, -, hshort⟩
        · rw [← hstart, hcomponent] at happend
          simp only [Except.ok.injEq, Prod.mk.injEq, Cursor.mk.injEq] at happend
          obtain ⟨rfl, hoffset, hsplit⟩ := happend
          rw [parseLoop_step hfront' hread] at hok
          cases hnext : next.rest with
          | nil =>
            rw [hnext] at hsplit
            cases hsplit
          | cons c more =>
            rw [hnext] at hsplit hok
            obtain ⟨rfl, rfl⟩ := List.cons.inj hsplit
            dsimp only at hok
            rw [if_neg (by simp)] at hok
            split at hok
            · cases hok
            · rw [← hoffset] at hok
              exact ih more rfl _ _ hok
        · rw [← hstart] at hshort
          have := hshort _ _ hcomponent
          rw [List.length_cons] at this
          omega
  intro hok
  unfold parse at hok
  cases hparse : parseLoop json [] ⟨0, before⟩ with
  | error e => rw [hparse] at hok; cases hok
  | ok components => exact hloop _ hreach before rfl [] components hparse

/-- A slice is split off at a bracket outside quoted and escaped components. -/
theorem selector_outside (hjson : json.Lawful) {taken : HierarchyPath × Nat × Nat}
    (h : selector json text = .ok (some taken)) : ∃ before after, text = before ++ '[' :: after ∧
      parse json before = .ok taken.1 ∧ ¬Inside json before after := by
  unfold selector at h
  split at h
  next hend =>
    split at h
    · cases h
    next before bounds hbefore =>
      split at h
      · cases h
      next msb lsb hbounds =>
        split at h
        · cases h
        next path hpath =>
          have htext : text = before ++ '[' :: (bounds ++ [']']) := by
            rw [← List.dropLast_append_getLast? _ hend, splitLast_eq hbefore]
            simp
          have htaken : taken.1 = path := by
            split at h
            · cases h
            · split at h
              · cases h
              · cases h
                rfl
          exact ⟨before, _, htext, htaken ▸ hpath, fun hinside => hinside.not_path hjson path hpath⟩
  next => cases h

/-- A slice is never split off at a bracket inside a quoted or escaped component. -/
theorem Inside.selector (hjson : json.Lawful) (h : Inside json before after) (hlast : '[' ∉ after) :
    selector json (before ++ '[' :: after) = .ok none := by
  unfold Ondas.selector
  split
  next hend =>
    have hafter : after ≠ [] := by
      rintro rfl
      rw [List.getLast?_concat] at hend
      cases hend
    have hdrop : (before ++ '[' :: after).dropLast = before ++ '[' :: after.dropLast := by
      rw [List.dropLast_append_of_ne_nil (by simp), List.dropLast_cons_of_ne_nil hafter]
    rw [hdrop, splitLast_append fun hmem => hlast (List.dropLast_subset _ hmem)]
    dsimp only
    split
    · rfl
    · split
      · rfl
      next path hpath => exact absurd hpath (h.not_path hjson path)
  next => rfl

end

/-! ## Resolution -/

namespace Hierarchy

variable {h : Hierarchy} {sort : Library.Sorting Nat Text} {json : JsonStrings}

/-- A path that one variable has is looked up as that variable. -/
theorem signalPath_unique {path : HierarchyPath} {v : Nat} (hv : v < h.vars.length)
    (hpath : h.pathOf v = path) (hunique : ∀ w < h.vars.length, h.pathOf w = path → w = v) :
    h.signalPath sort path =
      match h.signalOf v with
      | none => .error (.noSignal path)
      | some signal => .ok signal := by
  have hfound : ((List.range h.vars.length).filter fun w => h.pathOf w = path).Perm [v] := by
    refine (List.perm_ext_iff_of_nodup (List.nodup_range.filter _) (List.nodup_singleton v)).2
      fun w => ?_
    rw [List.mem_filter, List.mem_range, decide_eq_true_eq, List.mem_singleton]
    exact ⟨fun hw => hunique w hw.1 hw.2, by rintro rfl; exact ⟨hv, hpath⟩⟩
  rw [signalPath, variablePath_eq, resolve_perm hfound]
  rfl

/-- A path that no variable has is not found. -/
theorem signalPath_missing {path : HierarchyPath}
    (hmissing : ∀ w < h.vars.length, h.pathOf w ≠ path) :
    h.signalPath sort path = .error (.notFound path) := by
  have hfound : (List.range h.vars.length).filter (fun w => h.pathOf w = path) = [] :=
    List.filter_eq_nil_iff.2 fun w hw => by simpa using hmissing w (List.mem_range.1 hw)
  rw [signalPath, variablePath_eq, hfound]
  rfl

/-- **Bit selectors.** For the only variable with its path, the canonical text of the path followed
by a slice that its signal has selects that slice, when no variable has the whole text as its path.
When exactly one has, the text selects that variable's whole signal. A slice is only ever split off
at a bracket outside quoted and escaped components: a text whose last bracket lies inside one is
looked up as it stands. -/
theorem signal_selects (hjson : json.Lawful) (h : Hierarchy) (sort : Library.Sorting Nat Text) :
    (∀ v < h.vars.length, ∀ s, h.signalOf v = some s →
      (∀ w < h.vars.length, h.pathOf w = h.pathOf v → w = v) →
      ∀ (msb lsb : UInt32) s', s.slice msb.toNat lsb.toNat = .ok s' →
      ∀ text, display json (h.pathOf v) = some text →
        ((∀ path, parse json (text ++ sliceText msb lsb) = .ok path →
            ∀ w < h.vars.length, h.pathOf w ≠ path) →
          h.signal sort json (text ++ sliceText msb lsb) = .ok s') ∧
        (∀ path w, parse json (text ++ sliceText msb lsb) = .ok path →
          w < h.vars.length → h.pathOf w = path →
          (∀ w' < h.vars.length, h.pathOf w' = path → w' = w) →
          h.signal sort json (text ++ sliceText msb lsb) =
            match h.signalOf w with
            | none => .error (.noSignal path)
            | some signal => .ok signal)) ∧
    (∀ before after, '[' ∉ after → Inside json before after →
      h.signal sort json (before ++ '[' :: after) =
        h.exactSignal sort json (before ++ '[' :: after)) ∧
    ∀ text taken, selector json text = .ok (some taken) → ∃ before after,
      text = before ++ '[' :: after ∧ parse json before = .ok taken.1 ∧
        ¬Inside json before after := by
  refine ⟨fun v hv s hs hunique msb lsb s' hslice text htext => ⟨fun hmissing => ?_,
    fun path w hpath hw hwpath hwunique => ?_⟩, fun before after hlast hinside => ?_,
    fun text taken htaken => selector_outside hjson htaken⟩
  · have hsliced : ∀ exact, h.slicedSignal sort json (text ++ sliceText msb lsb) exact =
        .ok s' := by
      intro exact
      rw [slicedSignal, selector_sliceText (parse_of_display hjson htext)]
      dsimp only
      rw [signalPath_unique hv rfl hunique, hs]
      dsimp only
      rw [hslice]
    rw [signal, exactSignal]
    cases hparse : parse json (text ++ sliceText msb lsb) with
    | error e => exact hsliced _
    | ok path =>
      dsimp only
      rw [signalPath_missing (hmissing path hparse)]
      exact hsliced _
  · rw [signal, exactSignal, hpath]
    dsimp only
    rw [signalPath_unique hw hwpath hwunique]
    cases h.signalOf w <;> rfl
  · rw [signal]
    split
    next path hexact =>
      rw [slicedSignal, hinside.selector hjson hlast, hexact]
    next e hexact =>
      rw [slicedSignal, hinside.selector hjson hlast, hexact]
    next => rfl

/-- A root variable `data` of eight bits and a root variable `a[1:0]`. -/
def twoVariables : Hierarchy where
  source := 1
  scopes := []
  vars := [⟨"data".toList, none, some 0⟩, ⟨"a[1:0]".toList, none, some 1⟩]
  encodings := [.bits 8, .bits 2]
  scope_parents := by simp
  variable_parents := by simp
  variable_signals := by simp
  acyclic := ⟨fun _ => ⟨_, fun _ ⟨_, hscope, _⟩ => nomatch hscope⟩⟩

/-- A selector with a slice finds the variable without it. -/
theorem signal_selects_data :
    twoVariables.signal .stable .simple "data[7:4]".toList =
      .ok { source := 1, index := 0, computed := false, baseEncoding := .bits 8,
            encoding := .bits 4, lsb := 4 } := by
  have hpaths : ∀ w < 2, twoVariables.pathOf w = ⟨["data".toList]⟩ ∧ w = 0 ∨
      twoVariables.pathOf w = ⟨["a[1:0]".toList]⟩ ∧ w = 1 := by
    intro w hw
    rcases (by omega : w = 0 ∨ w = 1) with rfl | rfl <;> simp [pathOf, twoVariables]
  have hzero : twoVariables.pathOf 0 = ⟨["data".toList]⟩ := by
    rcases hpaths 0 (by decide) with h | h
    · exact h.1
    · cases h.2
  have hparse : parse .simple "data[7:4]".toList = .ok ⟨["data[7:4]".toList]⟩ := by
    have hcomponent : component .simple ⟨0, "data[7:4]".toList⟩ =
        .ok ("data[7:4]".toList, ⟨9, []⟩) := by rfl
    rw [parse, parseLoop_step (by simp) hcomponent]
    rfl
  refine ((signal_selects JsonStrings.simple_lawful twoVariables .stable).1 0 (by decide) _ rfl
    (fun w hw heq => ?_) 7 4 _ rfl "data".toList (by rw [hzero]; decide)).1
    fun path hpath w hw => ?_
  · rcases hpaths w hw with h | h
    · exact h.2
    · rw [hzero, h.1] at heq
      cases heq
  · rw [show "data".toList ++ sliceText 7 4 = "data[7:4]".toList by decide, hparse] at hpath
    cases hpath
    rcases hpaths w hw with h | h <;> rw [h.1] <;> decide

end Hierarchy

end Ondas
