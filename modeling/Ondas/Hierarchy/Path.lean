import Mathlib.Algebra.Order.Ring.Int
import Mathlib.Data.List.Basic

/-!
# Hierarchy paths

A path is a list of exact component names. `HierarchyPath.parse` reads one of three spellings for
each component, chosen by its first character: a JSON string, an escaped identifier that whitespace
ends, or a bare name. `HierarchyPath.display` writes the canonical text, with a JSON string where a
bare name would not do.

JSON strings are read and written by a library outside the repository, so they are a parameter
(`JsonStrings`); `JsonStrings.Lawful` says what the paths rely on: writing and reading are inverse,
and reading consumes exactly one string. Canonical text reads back (`parse_display`).
-/

namespace Ondas

/-- The characters of a string. -/
abbrev Text := List Char

/-- `str::len`: the bytes of a text. -/
def utf8Len (text : Text) : Nat := (text.map Char.utf8Size).sum

@[simp] theorem utf8Len_nil : utf8Len [] = 0 := rfl

@[simp] theorem utf8Len_cons (c : Char) (text : Text) :
    utf8Len (c :: text) = c.utf8Size + utf8Len text := rfl

/-- What is left of a text after some of its bytes. -/
def dropBytes : Nat → Text → Text
  | 0, text => text
  | _ + 1, [] => []
  | n + 1, c :: text => dropBytes (n + 1 - c.utf8Size) text

/-- `char::is_whitespace`: the Unicode property `White_Space`. -/
def isWhitespace (c : Char) : Bool :=
  (9 ≤ c.toNat && c.toNat ≤ 13) || c.toNat == 0x20 || c.toNat == 0x85 || c.toNat == 0xa0 ||
    c.toNat == 0x1680 || (0x2000 ≤ c.toNat && c.toNat ≤ 0x200a) || c.toNat == 0x2028 ||
    c.toNat == 0x2029 || c.toNat == 0x202f || c.toNat == 0x205f || c.toNat == 0x3000

/-- `char::is_control`: the Unicode category `Cc`. -/
def isControl (c : Char) : Bool := c.toNat < 0x20 || (0x7f ≤ c.toNat && c.toNat < 0xa0)

/-- Why a text is not a path, with the byte offset of the fault. -/
structure PathError where
  offset : Nat
  message : String
  deriving DecidableEq, Repr

/-- The exact components of a path. -/
structure HierarchyPath where
  components : List Text
  deriving DecidableEq, Repr

/-- An error of the JSON reader. -/
structure JsonError where
  isEof : Bool
  line : Nat
  column : Nat
  message : String

/-- The JSON library: `to_string` of a string, and the first string of an input with the bytes it
takes. -/
structure JsonStrings where
  toString : Text → Option Text
  next : Text → Except JsonError (Text × Nat)

/-- What the paths rely on: a string is written between quotes and reads back, and reading consumes
exactly one string, whatever follows it. -/
structure JsonStrings.Lawful (json : JsonStrings) : Prop where
  inverse : ∀ s, ∃ text, json.toString s = some ('"' :: text) ∧
    json.next ('"' :: text) = .ok (s, utf8Len ('"' :: text))
  consumes : ∀ input s n, json.next input = .ok (s, n) →
    n ≤ utf8Len input ∧ ∀ rest, json.next (input ++ rest) = .ok (s, n)

namespace HierarchyPath

/-! ## Reading -/

/-- A place in the text: its byte offset and what is left. -/
structure Cursor where
  offset : Nat
  rest : Text

/-- The bytes of the first lines of a text, with their line ends. -/
def lineBytes : Nat → Text → Nat
  | 0, _ => 0
  | _ + 1, [] => 0
  | lines + 1, c :: text => c.utf8Size + lineBytes (if c = '\n' then lines else lines + 1) text

/-- Where a JSON error points to in its input. -/
def errorPosition (err : JsonError) (input : Text) : Nat :=
  if err.isEof then utf8Len input else lineBytes (err.line - 1) input + err.column - 1

/-- A component in quotes. -/
def quoted (json : JsonStrings) (here : Cursor) : Except PathError (Text × Cursor) :=
  match json.next here.rest with
  | .error err => .error ⟨here.offset + errorPosition err here.rest, err.message⟩
  | .ok (component, n) => .ok (component, ⟨here.offset + n, dropBytes n here.rest⟩)

/-- The name of an escaped identifier. -/
def escapedName (name : Text) (offset : Nat) : Text → Except PathError (Text × Cursor)
  | [] => .ok (name, ⟨offset, []⟩)
  | c :: text =>
    if isWhitespace c then .ok (name, ⟨offset, c :: text⟩)
    else if 0x80 ≤ c.toNat || isControl c then
      .error ⟨offset, "escaped identifiers require printable ASCII"⟩
    else escapedName (name ++ [c]) (offset + c.utf8Size) text

/-- Skipping whitespace. -/
def skipWhitespace (offset : Nat) : Text → Cursor
  | [] => ⟨offset, []⟩
  | c :: text => if isWhitespace c then skipWhitespace (offset + c.utf8Size) text
      else ⟨offset, c :: text⟩

/-- An escaped component, after its backslash. -/
def escaped (offset : Nat) (text : Text) : Except PathError (Text × Cursor) :=
  match escapedName [] offset text with
  | .error e => .error e
  | .ok (name, next) =>
    if name = [] then .error ⟨next.offset, "empty escaped identifier"⟩
    else if next.rest = [] then
      .error ⟨next.offset, "escaped identifier requires terminating whitespace"⟩
    else .ok (name, skipWhitespace next.offset next.rest)

/-- The name of a bare component. -/
def bareName (name : Text) (offset : Nat) : Text → Except PathError (Text × Cursor)
  | [] => .ok (name, ⟨offset, []⟩)
  | c :: text =>
    if c = '.' then .ok (name, ⟨offset, c :: text⟩)
    else if isWhitespace c || isControl c || c == '"' || c == '\\' then
      .error ⟨offset, "quote or escape this component"⟩
    else bareName (name ++ [c]) (offset + c.utf8Size) text

/-- A bare component. -/
def bare (offset : Nat) (text : Text) : Except PathError (Text × Cursor) :=
  match bareName [] offset text with
  | .error e => .error e
  | .ok (name, next) =>
    if name = [] then .error ⟨next.offset, "empty path component"⟩ else .ok (name, next)

/-- The component at a place, and the place after it. -/
def component (json : JsonStrings) (here : Cursor) : Except PathError (Text × Cursor) :=
  match here.rest with
  | '"' :: _ => quoted json here
  | '\\' :: text => escaped (here.offset + 1) text
  | text => bare here.offset text

/-- Dropping bytes does not make a text longer. -/
theorem length_dropBytes_le (n : Nat) (text : Text) : (dropBytes n text).length ≤ text.length := by
  fun_induction dropBytes n text with
  | case1 text => exact Nat.le_refl _
  | case2 n => exact Nat.le_refl _
  | case3 n c text ih => exact Nat.le_succ_of_le ih

/-- Nor does skipping whitespace. -/
theorem length_skipWhitespace_le (offset : Nat) (text : Text) :
    (skipWhitespace offset text).rest.length ≤ text.length := by
  fun_induction skipWhitespace offset text with
  | case1 offset => exact Nat.le_refl _
  | case2 offset c text h ih => exact Nat.le_succ_of_le ih
  | case3 offset c text h => exact Nat.le_refl _

/-- Nor does reading an escaped name. -/
theorem length_escapedName_le {name : Text} {offset : Nat} {text : Text} {r : Text × Cursor}
    (h : escapedName name offset text = .ok r) : r.2.rest.length ≤ text.length := by
  fun_induction escapedName name offset text with
  | case1 name offset => cases h; exact Nat.le_refl _
  | case2 name offset c text hc => cases h; exact Nat.le_refl _
  | case3 name offset c text hc hbad => cases h
  | case4 name offset c text hc hbad ih => exact Nat.le_succ_of_le (ih h)

/-- Nor does reading a bare name. -/
theorem length_bareName_le {name : Text} {offset : Nat} {text : Text} {r : Text × Cursor}
    (h : bareName name offset text = .ok r) : r.2.rest.length ≤ text.length := by
  fun_induction bareName name offset text with
  | case1 name offset => cases h; exact Nat.le_refl _
  | case2 name offset text => cases h; exact Nat.le_refl _
  | case3 name offset c text hc hbad => cases h
  | case4 name offset c text hc hbad ih => exact Nat.le_succ_of_le (ih h)

/-- Reading a component does not go back. -/
theorem length_component_le {json : JsonStrings} {here : Cursor} {r : Text × Cursor}
    (h : component json here = .ok r) : r.2.rest.length ≤ here.rest.length := by
  unfold component at h
  split at h
  next text htext =>
    unfold quoted at h
    split at h
    · cases h
    · cases h
      exact length_dropBytes_le _ _
  next text htext =>
    unfold escaped at h
    split at h
    · cases h
    · next name next hname =>
      split at h
      · cases h
      · split at h
        · cases h
        · cases h
          rw [htext]
          exact Nat.le_succ_of_le
            (Nat.le_trans (length_skipWhitespace_le _ _) (length_escapedName_le hname))
  next text =>
    unfold bare at h
    split at h
    · cases h
    · next name next hname =>
      split at h
      · cases h
      · cases h
        exact length_bareName_le hname

/-- The loop of `parse`, with the components read so far. -/
def parseLoop (json : JsonStrings) (components : List Text) (here : Cursor) :
    Except PathError (List Text) :=
  if here.rest = [] then .ok components
  else
    match _h : component json here with
    | .error e => .error e
    | .ok (name, next) =>
      match _hnext : next.rest with
      | [] => .ok (components ++ [name])
      | c :: rest =>
        if c ≠ '.' then .error ⟨next.offset, "expected a component separator"⟩
        else if rest = [] then .error ⟨next.offset + 1, "missing path component"⟩
        else parseLoop json (components ++ [name]) ⟨next.offset + 1, rest⟩
termination_by here.rest.length
decreasing_by
  have := length_component_le _h
  simp only [_hnext, List.length_cons] at this
  exact this

/-- `HierarchyPath::parse`. -/
def parse (json : JsonStrings) (text : Text) : Except PathError HierarchyPath :=
  (parseLoop json [] ⟨0, text⟩).map HierarchyPath.mk

/-! ## Writing -/

/-- A component that a bare name does not spell. -/
def needsQuotes (component : Text) : Bool :=
  component.isEmpty || component.any fun c =>
    isWhitespace c || isControl c || c == '.' || c == '[' || c == ']' || c == '"' || c == '\\'

/-- The canonical text of one component. -/
def displayComponent (json : JsonStrings) (component : Text) : Option Text :=
  if needsQuotes component then json.toString component else some component

/-- The canonical text of the components from an index on. -/
def displayFrom (json : JsonStrings) (index : Nat) : List Text → Option Text
  | [] => some []
  | component :: components =>
    match displayComponent json component, displayFrom json (index + 1) components with
    | some text, some rest => some ((if index ≠ 0 then ['.'] else []) ++ (text ++ rest))
    | _, _ => none

/-- `Display for HierarchyPath`: the canonical text, unless the JSON library fails. -/
def display (json : JsonStrings) (path : HierarchyPath) : Option Text :=
  displayFrom json 0 path.components

/-! ## Reading what was written -/

/-- Bytes of the first of two texts are dropped from it. -/
theorem dropBytes_append {n : Nat} {text : Text} (rest : Text) (h : n ≤ utf8Len text) :
    dropBytes n (text ++ rest) = dropBytes n text ++ rest := by
  fun_induction dropBytes n text with
  | case1 text => rw [dropBytes]
  | case2 n => exact absurd h (by simp)
  | case3 n c text ih =>
    rw [utf8Len_cons] at h
    rw [List.cons_append, dropBytes]
    exact ih (by omega)

/-- Dropping all bytes leaves nothing. -/
@[simp] theorem dropBytes_utf8Len (text : Text) : dropBytes (utf8Len text) text = [] := by
  induction text with
  | nil => rfl
  | cons c text ih =>
    have hpos := c.utf8Size_pos
    obtain ⟨n, hn⟩ := Nat.exists_eq_add_of_lt (show 0 < utf8Len (c :: text) by simp; omega)
    have hn' : utf8Len (c :: text) = n + 1 := by omega
    rw [hn', dropBytes, ← hn', utf8Len_cons, Nat.add_sub_cancel_left, ih]

/-- What follows a component: the end of the text or a separator. -/
def Ends (rest : Text) : Prop := rest = [] ∨ ∃ more, rest = '.' :: more

/-- A name without special characters is read as it stands. -/
theorem bareName_plain {text rest name : Text} {offset : Nat} (hrest : Ends rest)
    (h : ∀ c ∈ text, c ≠ '.' ∧ (isWhitespace c || isControl c || c == '"' || c == '\\') = false) :
    bareName name offset (text ++ rest) = .ok (name ++ text, ⟨offset + utf8Len text, rest⟩) := by
  induction text generalizing name offset with
  | nil =>
    rcases hrest with rfl | ⟨more, rfl⟩ <;> simp [bareName]
  | cons c text ih =>
    obtain ⟨hdot, hplain⟩ := h c (by simp)
    rw [List.cons_append, bareName, if_neg hdot, hplain, if_neg Bool.false_ne_true,
      ih fun d hd => h d (List.mem_cons_of_mem _ hd)]
    simp [Nat.add_assoc]

variable {json : JsonStrings}

/-- The canonical text of a component reads back. -/
theorem component_display (hjson : json.Lawful) {name text rest : Text} (offset : Nat)
    (htext : displayComponent json name = some text) (hrest : Ends rest) :
    text ≠ [] ∧ component json ⟨offset, text ++ rest⟩ =
      .ok (name, ⟨offset + utf8Len text, rest⟩) := by
  unfold displayComponent at htext
  split at htext
  next hquotes =>
    obtain ⟨tail, hwrite, hread⟩ := hjson.inverse name
    rw [hwrite] at htext
    cases htext
    obtain ⟨-, hmore⟩ := hjson.consumes _ _ _ hread
    refine ⟨nofun, ?_⟩
    rw [component, List.cons_append]
    dsimp only
    rw [quoted, ← List.cons_append, hmore rest]
    dsimp only
    rw [dropBytes_append rest (Nat.le_refl _), dropBytes_utf8Len, List.nil_append]
    rfl
  next hplain =>
    cases htext
    rw [needsQuotes, Bool.or_eq_true, not_or, Bool.not_eq_true, Bool.not_eq_true] at hplain
    obtain ⟨hne, hchars⟩ := hplain
    obtain ⟨c, text, rfl⟩ := List.exists_cons_of_ne_nil (by simpa using hne)
    have hall : ∀ d ∈ c :: text, d ≠ '.' ∧
        (isWhitespace d || isControl d || d == '"' || d == '\\') = false := by
      intro d hd
      have := List.any_eq_false.1 hchars d hd
      simp only [Bool.or_eq_true, beq_iff_eq, not_or] at this
      simp [this]
    obtain ⟨-, hc⟩ := hall c (by simp)
    simp only [Bool.or_eq_false_iff, beq_eq_false_iff_ne] at hc
    refine ⟨nofun, ?_⟩
    unfold component
    split
    next tail heq => exact absurd (List.cons.inj heq).1 hc.1.2
    next tail heq => exact absurd (List.cons.inj heq).1 hc.2
    next tail =>
      rw [bare, bareName_plain hrest hall]
      rfl

/-- Behind the first component the place of a component does not matter. -/
theorem displayFrom_succ (i j : Nat) (components : List Text) :
    displayFrom json (i + 1) components = displayFrom json (j + 1) components := by
  induction components generalizing i j with
  | nil => rfl
  | cons name components ih => rw [displayFrom, displayFrom, ih (i + 1) (j + 1)]; rfl

/-- Every path has a canonical text. -/
theorem displayFrom_isSome (hjson : json.Lawful) (i : Nat) (components : List Text) :
    ∃ text, displayFrom json i components = some text := by
  induction components generalizing i with
  | nil => exact ⟨[], rfl⟩
  | cons name components ih =>
    obtain ⟨rest, hrest⟩ := ih (i + 1)
    obtain ⟨tail, hwrite, -⟩ := hjson.inverse name
    have hfirst : ∃ text, displayComponent json name = some text := by
      unfold displayComponent
      split
      · exact ⟨_, hwrite⟩
      · exact ⟨_, rfl⟩
    obtain ⟨text, hfirst⟩ := hfirst
    rw [displayFrom, hrest, hfirst]
    exact ⟨_, rfl⟩

section
variable {read : List Text} {here next : Cursor} {name : Text}

/-- A component that is malformed ends the path with its error. -/
theorem parseLoop_error {e : PathError} (hne : here.rest ≠ [])
    (h : component json here = .error e) :
    parseLoop json read here = .error e := by
  rw [parseLoop, if_neg hne]
  split
  next e' he =>
    rw [h] at he
    cases he
    rfl
  next hok => rw [h] at hok; cases hok

/-- One turn of the loop. -/
theorem parseLoop_step (hne : here.rest ≠ []) (h : component json here = .ok (name, next)) :
    parseLoop json read here =
      match next.rest with
      | [] => .ok (read ++ [name])
      | c :: rest =>
        if c ≠ '.' then .error ⟨next.offset, "expected a component separator"⟩
        else if rest = [] then .error ⟨next.offset + 1, "missing path component"⟩
        else parseLoop json (read ++ [name]) ⟨next.offset + 1, rest⟩ := by
  rw [parseLoop, if_neg hne]
  split
  next e he => rw [h] at he; cases he
  next name' next' hok =>
    rw [h] at hok
    cases hok
    split
    next hrest => rw [hrest]
    next c rest hrest => rw [hrest]

end

/-- The loop reads the components of a canonical text. -/
theorem parseLoop_display (hjson : json.Lawful) {components read : List Text} {text : Text}
    {offset : Nat} (htext : displayFrom json 0 components = some text) :
    (components ≠ [] → text ≠ []) ∧
      parseLoop json read ⟨offset, text⟩ = .ok (read ++ components) := by
  induction components generalizing read text offset with
  | nil =>
    cases htext
    rw [parseLoop]
    simp
  | cons name components ih =>
    rw [displayFrom] at htext
    split at htext
    next first rest hfirst hrest =>
      cases htext
      simp only [ne_eq, not_true_eq_false, if_false, List.nil_append]
      cases components with
      | nil =>
        cases hrest
        obtain ⟨hne, hcomponent⟩ := component_display hjson offset hfirst (.inl rfl)
        rw [List.append_nil] at hcomponent ⊢
        exact ⟨fun _ => hne, parseLoop_step hne hcomponent⟩
      | cons other components =>
        obtain ⟨tail, htail⟩ := displayFrom_isSome hjson 0 (other :: components)
        obtain rfl : rest = '.' :: tail := by
          rw [displayFrom] at hrest htail
          rw [displayFrom_succ (0 + 1) 0] at hrest
          split at htail
          next second more hsecond hmore =>
            rw [hsecond, hmore] at hrest
            cases htail
            cases hrest
            rfl
          next hnone => cases htail
        obtain ⟨hne, hcomponent⟩ :=
          component_display hjson offset hfirst (.inr ⟨tail, rfl⟩)
        have hne' : first ++ '.' :: tail ≠ [] := by simp
        obtain ⟨htail', hloop⟩ : _ ∧ parseLoop json (read ++ [name])
            ⟨offset + utf8Len first + 1, tail⟩ = _ := ih htail
        refine ⟨fun _ => hne', (parseLoop_step hne' hcomponent).trans ?_⟩
        dsimp only
        rw [if_neg (by simp), if_neg (htail' nofun), hloop, List.append_assoc]
        rfl
    next hnone => cases htext

/-- The canonical text of a path reads back as that path. -/
theorem parse_of_display (hjson : json.Lawful) {path : HierarchyPath} {text : Text}
    (h : path.display json = some text) : parse json text = .ok path := by
  rw [parse, (parseLoop_display hjson h).2]
  rfl

/-- **Canonical paths.** Every list of components has a canonical text, which parses as exactly
these components; so distinct paths have distinct texts. -/
theorem parse_display (hjson : json.Lawful) :
    (∀ components : List Text, ∃ text, display json ⟨components⟩ = some text ∧
      parse json text = .ok ⟨components⟩) ∧
    ∀ path path' : HierarchyPath, path.display json = path'.display json → path = path' := by
  refine ⟨fun components => ?_, fun path path' h => ?_⟩
  · obtain ⟨text, htext⟩ := displayFrom_isSome hjson 0 components
    have hparse : parse json text = .ok ⟨components⟩ := parse_of_display hjson htext
    exact ⟨text, htext, hparse⟩
  · obtain ⟨text, htext⟩ := displayFrom_isSome hjson 0 path.components
    have hpath : parse json text = .ok path := parse_of_display hjson htext
    have hpath' : parse json text = .ok path' := parse_of_display hjson (h.symm.trans htext)
    rw [hpath] at hpath'
    cases hpath'
    rfl

end HierarchyPath

/-! ## A JSON library -/

namespace JsonStrings

/-- A character inside quotes. -/
def escape (c : Char) : Text := if c == '"' || c == '\\' then ['\\', c] else [c]

/-- The rest of a string after its opening quote, with the bytes it takes. -/
def readString : Text → Option (Text × Nat)
  | [] => none
  | c :: text =>
    if c = '"' then some ([], 1)
    else if c = '\\' then
      match text with
      | [] => none
      | d :: text =>
        if d == '"' || d == '\\' then (readString text).map fun r => (d :: r.1, r.2 + 2) else none
    else (readString text).map fun r => (c :: r.1, r.2 + c.utf8Size)

/-- JSON strings with the escapes of quotes and backslashes only. -/
def simple : JsonStrings where
  toString s := some ('"' :: (s.flatMap escape ++ ['"']))
  next
    | [] => .error ⟨true, 1, 0, "EOF while parsing a value at line 1 column 0"⟩
    | c :: text =>
      if c = '"' then
        match readString text with
        | none => .error ⟨true, 1, utf8Len text + 1, "EOF while parsing a string"⟩
        | some (s, n) => .ok (s, n + 1)
      else .error ⟨false, 1, 1, "expected value at line 1 column 1"⟩

theorem readString_quote (text : Text) : readString ('"' :: text) = some ([], 1) := by
  rw [readString.eq_def]
  rfl

/-- A quote or a backslash is escaped by a backslash. -/
theorem readString_slash {d : Char} (text : Text) (hd : (d == '"' || d == '\\') = true) :
    readString ('\\' :: d :: text) = (readString text).map fun r => (d :: r.1, r.2 + 2) := by
  rw [readString.eq_def]
  dsimp only
  rw [if_neg (by decide), if_pos rfl, if_pos hd]

/-- Any other character stands for itself. -/
theorem readString_plain {c : Char} (text : Text) (hquote : c ≠ '"') (hslash : c ≠ '\\') :
    readString (c :: text) = (readString text).map fun r => (c :: r.1, r.2 + c.utf8Size) := by
  rw [readString.eq_def]
  dsimp only
  rw [if_neg hquote, if_neg hslash]

/-- Escaping a text and reading it up to the quote gives the text back, and takes all its bytes. -/
theorem readString_escape (s : Text) :
    readString (s.flatMap escape ++ ['"']) = some (s, utf8Len (s.flatMap escape ++ ['"'])) := by
  induction s with
  | nil => rfl
  | cons c s ih =>
    rw [List.flatMap_cons, List.append_assoc]
    by_cases hc : (c == '"' || c == '\\') = true
    · have hsize : c.utf8Size = 1 := by
        rcases Bool.or_eq_true_iff.1 hc with h | h <;> rw [beq_iff_eq.1 h] <;> rfl
      have hslash : '\\'.utf8Size = 1 := rfl
      rw [escape, if_pos hc, List.cons_append, List.cons_append, List.nil_append,
        readString_slash _ hc, ih]
      simp only [Option.map_some, utf8Len_cons, hsize, hslash, Option.some.injEq, Prod.mk.injEq,
        true_and]
      omega
    · rw [escape, if_neg hc]
      simp only [Bool.or_eq_true, beq_iff_eq, not_or] at hc
      rw [List.cons_append, List.nil_append, readString_plain _ hc.1 hc.2, ih]
      simp only [Option.map_some, utf8Len_cons, Option.some.injEq, Prod.mk.injEq, true_and]
      omega

/-- Reading a string takes bytes that are there, and does not depend on what follows the quote. -/
theorem readString_consumes {text s : Text} {n : Nat} (h : readString text = some (s, n)) :
    n ≤ utf8Len text ∧ ∀ rest, readString (text ++ rest) = some (s, n) := by
  induction hlength : text.length using Nat.strongRecOn generalizing text s n with
  | _ m ih =>
  subst hlength
  cases text with
  | nil => cases h
  | cons c text =>
    have hpos := c.utf8Size_pos
    by_cases hquote : c = '"'
    · subst hquote
      rw [readString_quote] at h
      cases h
      exact ⟨by rw [utf8Len_cons]; omega, fun rest => readString_quote _⟩
    by_cases hslash : c = '\\'
    · subst hslash
      cases text with
      | nil => cases h
      | cons d text =>
        have hpos' := d.utf8Size_pos
        by_cases hd : (d == '"' || d == '\\') = true
        · rw [readString_slash text hd] at h
          obtain ⟨⟨s', n'⟩, hr, heq⟩ := Option.map_eq_some_iff.1 h
          cases heq
          obtain ⟨hle, hmore⟩ := ih _ (by simp only [List.length_cons]; omega) hr rfl
          refine ⟨by simp only [utf8Len_cons]; omega, fun rest => ?_⟩
          rw [List.cons_append, List.cons_append, readString_slash _ hd, hmore rest]
          rfl
        · rw [readString.eq_def] at h
          dsimp only at h
          rw [if_neg (by decide), if_pos rfl, if_neg hd] at h
          cases h
    · rw [readString_plain text hquote hslash] at h
      obtain ⟨⟨s', n'⟩, hr, heq⟩ := Option.map_eq_some_iff.1 h
      cases heq
      obtain ⟨hle, hmore⟩ := ih _ (by simp) hr rfl
      refine ⟨by rw [utf8Len_cons]; omega, fun rest => ?_⟩
      rw [List.cons_append, readString_plain _ hquote hslash, hmore rest]
      rfl

/-- The reader of strings that is used in the tests keeps the laws that are taken of the library. -/
theorem simple_lawful : simple.Lawful := by
  refine ⟨fun s => ⟨_, rfl, ?_⟩, fun input s n h => ?_⟩
  · simp only [simple, if_pos, readString_escape, utf8Len_cons]
    rw [Nat.add_comm]
    rfl
  · cases input with
    | nil => cases h
    | cons c text =>
      simp only [simple] at h
      split at h
      next hc =>
        split at h
        · cases h
        next s' n' hread =>
          cases h
          obtain ⟨hle, hmore⟩ := readString_consumes hread
          have := c.utf8Size_pos
          refine ⟨by rw [utf8Len_cons]; omega, fun rest => ?_⟩
          simp only [simple, List.cons_append, if_pos hc, hmore rest]
      next hc => cases h

end JsonStrings

namespace HierarchyPath

/-- A component with a dot and an empty one are quoted. -/
theorem parse_display_quoted :
    parse .simple "top.\"a.b\".\"\"".toList = .ok ⟨["top".toList, "a.b".toList, []]⟩ := by
  obtain ⟨text, htext, hparse⟩ :=
    (parse_display JsonStrings.simple_lawful).1 ["top".toList, "a.b".toList, []]
  have hdisplay : display .simple ⟨["top".toList, "a.b".toList, []]⟩ =
      some "top.\"a.b\".\"\"".toList := by decide
  rw [hdisplay] at htext
  cases htext
  exact hparse

end HierarchyPath

end Ondas
