import Ondas.Hierarchy.Path

/-!
# Verilog paths

`HierarchyPath.toVerilog` writes every component as an escaped identifier: a backslash, the name and
a space. A name that has a byte which is not printable ASCII, or is empty, has no such spelling
(`spellable`). Every other character stands for itself, also a dot, a quote, a bracket or a
backslash, so the text parses as the components it was written from (`toVerilog_parse`).
-/

namespace Ondas

/-- `str::bytes`: the UTF-8 bytes of a text. -/
def textBytes (text : Text) : List UInt8 := text.flatMap String.utf8EncodeChar

/-- `PathFormatError`: a component that has no spelling. -/
inductive PathFormatError where
  | notRepresentable (component : Text)
  deriving DecidableEq, Repr

namespace HierarchyPath

/-- A component that an escaped identifier spells: printable ASCII, and some of it. -/
def spellable (component : Text) : Bool :=
  !component.isEmpty && (textBytes component).all fun b => 33 ≤ b && b ≤ 126

/-- The loop of `to_verilog`, with the text written so far. -/
def toVerilogLoop (output : Text) : List Text → Except PathFormatError Text
  | [] => .ok output
  | component :: components =>
    if !spellable component then .error (.notRepresentable component)
    else toVerilogLoop
      ((if output.isEmpty then output else output ++ ['.']) ++ '\\' :: (component ++ [' ']))
      components

/-- `HierarchyPath::to_verilog`. -/
def toVerilog (path : HierarchyPath) : Except PathFormatError Text :=
  toVerilogLoop [] path.components

/-! ## Components -/

/-- The bytes of a character that is not ASCII are not ASCII. -/
theorem ascii_of_bytes {c : Char} (h : ∀ b ∈ String.utf8EncodeChar c, 33 ≤ b ∧ b ≤ 126) :
    33 ≤ c.toNat ∧ c.toNat ≤ 126 := by
  have hlast : ∀ n : Nat, n < 64 → ¬ UInt8.ofNat (n + 128) ≤ 126 := by
    intro n hn hle
    have := UInt8.le_iff_toNat_le.1 hle
    rw [UInt8.toNat_ofNat', Nat.mod_eq_of_lt (by omega)] at this
    exact absurd this (by simp)
  have hbyte := fun b hb => (h b hb).2
  unfold String.utf8EncodeChar at h hbyte
  dsimp only at h hbyte
  split at h
  next hsmall =>
    obtain ⟨hlow, hhigh⟩ := h _ (.head _)
    rw [UInt8.le_iff_toNat_le, UInt8.toNat_ofNat', Nat.mod_eq_of_lt (by omega)] at hlow hhigh
    exact ⟨hlow, hhigh⟩
  next hlarge =>
    rw [if_neg hlarge] at hbyte
    have hmod := Nat.mod_lt c.val.toNat (show 0 < 64 by decide)
    split at hbyte
    · exact absurd (hbyte _ (by simp)) (hlast _ hmod)
    · split at hbyte
      · exact absurd (hbyte _ (by simp)) (hlast _ hmod)
      · exact absurd (hbyte _ (by simp)) (hlast _ hmod)

/-- The characters of a component that an escaped identifier spells. -/
theorem spellable_iff {component : Text} :
    spellable component = true ↔
      component ≠ [] ∧ ∀ b ∈ textBytes component, 33 ≤ b ∧ b ≤ 126 := by
  simp [spellable]

/-- The characters of a component that can be spelled are no whitespace, no control characters and
ASCII. -/
theorem spellable_char {component : Text} (h : spellable component = true) {c : Char}
    (hc : c ∈ component) : isWhitespace c = false ∧ (0x80 ≤ c.toNat || isControl c) = false := by
  obtain ⟨hlow, hhigh⟩ := ascii_of_bytes fun b hb =>
    (spellable_iff.1 h).2 b (List.mem_flatMap.2 ⟨c, hc, hb⟩)
  simp only [isWhitespace, isControl, Bool.or_eq_false_iff, Bool.and_eq_false_iff,
    decide_eq_false_iff_not, beq_eq_false_iff_ne]
  omega

/-! ## Reading what was written -/

section
variable {json : JsonStrings}

/-- The name of an escaped identifier goes on to its space. -/
theorem escapedName_plain {text name rest : Text} {offset : Nat}
    (h : ∀ c ∈ text, isWhitespace c = false ∧ (0x80 ≤ c.toNat || isControl c) = false) :
    escapedName name offset (text ++ ' ' :: rest) =
      .ok (name ++ text, ⟨offset + utf8Len text, ' ' :: rest⟩) := by
  induction text generalizing name offset with
  | nil =>
    rw [List.nil_append, escapedName, if_pos (by decide), List.append_nil]
    rfl
  | cons c text ih =>
    obtain ⟨hspace, hprintable⟩ := h c (.head _)
    rw [List.cons_append, escapedName, hspace, if_neg Bool.false_ne_true, hprintable,
      if_neg Bool.false_ne_true, ih fun d hd => h d (.tail _ hd), List.append_assoc, utf8Len_cons,
      Nat.add_assoc]
    rfl

/-- A separator is not skipped. -/
theorem skipWhitespace_ends {rest : Text} (hrest : Ends rest) (offset : Nat) :
    skipWhitespace offset rest = ⟨offset, rest⟩ := by
  rcases hrest with rfl | ⟨more, rfl⟩
  · rfl
  · rw [skipWhitespace, if_neg (by decide)]

/-- The spelling of a component reads back. -/
theorem component_spelled {name rest : Text} (hname : spellable name = true) (hrest : Ends rest)
    (offset : Nat) :
    component json ⟨offset, '\\' :: (name ++ ' ' :: rest)⟩ =
      .ok (name, ⟨offset + 1 + utf8Len name + 1, rest⟩) := by
  have hread : escapedName [] (offset + 1) (name ++ ' ' :: rest) =
      .ok ([] ++ name, ⟨offset + 1 + utf8Len name, ' ' :: rest⟩) :=
    escapedName_plain fun c hc => spellable_char hname hc
  have hsize : ' '.utf8Size = 1 := rfl
  show escaped (offset + 1) (name ++ ' ' :: rest) = _
  rw [escaped, hread]
  dsimp only
  rw [List.nil_append, if_neg (spellable_iff.1 hname).1, if_neg (by simp), skipWhitespace,
    if_pos (by decide), hsize, skipWhitespace_ends hrest]

/-- What is written after some text: the spellings of the components, each after a separator. -/
def spelled (components : List Text) : Text :=
  components.flatMap fun component => '.' :: '\\' :: (component ++ [' '])

/-- A spelled path ends in a space when its last component is escaped. -/
theorem ends_spelled (components : List Text) : Ends (spelled components) := by
  cases components with
  | nil => exact .inl rfl
  | cons component components => exact .inr ⟨_, rfl⟩

/-- The loop succeeds when every component has a spelling, and appends these. -/
theorem toVerilogLoop_eq_ok {output text : Text} (houtput : output ≠ []) (components : List Text) :
    toVerilogLoop output components = .ok text ↔
      (∀ component ∈ components, spellable component = true) ∧
      text = output ++ spelled components := by
  induction components generalizing output with
  | nil =>
    simp only [toVerilogLoop, spelled, List.flatMap_nil, List.append_nil, Except.ok.injEq,
      List.not_mem_nil, false_imp_iff, implies_true, true_and]
    exact eq_comm
  | cons component components ih =>
    rw [toVerilogLoop]
    cases hname : spellable component with
    | false =>
      refine ⟨nofun, fun h => ?_⟩
      rw [h.1 component (.head _)] at hname
      cases hname
    | true =>
      have hempty : output.isEmpty = false := by simpa using houtput
      rw [Bool.not_true, if_neg Bool.false_ne_true, hempty, if_neg Bool.false_ne_true, ih (by simp)]
      simp [spelled, hname]

/-- The loop of `parse` reads the components that were spelled. -/
theorem parseLoop_spelled (name : Text) (components : List Text) {read : List Text} {offset : Nat}
    (h : ∀ component ∈ name :: components, spellable component = true) :
    parseLoop json read ⟨offset, '\\' :: (name ++ ' ' :: spelled components)⟩ =
      .ok (read ++ name :: components) := by
  induction components generalizing name read offset with
  | nil =>
    rw [parseLoop_step (by simp) (component_spelled (h name (.head _)) (ends_spelled []) offset)]
    rfl
  | cons other components ih =>
    rw [parseLoop_step (by simp) (component_spelled (h name (.head _)) (ends_spelled _) offset)]
    have hspelled : spelled (other :: components) =
        '.' :: '\\' :: (other ++ ' ' :: spelled components) := by simp [spelled]
    rw [hspelled]
    dsimp only
    rw [if_neg (by simp), if_neg nofun, ih other fun component hmem => h component (.tail _ hmem),
      List.append_assoc]
    rfl

end

/-- **Verilog paths.** A path has a Verilog text exactly when every component is nonempty and of
printable ASCII bytes, and this text parses as the components of the path. -/
theorem toVerilog_parse (json : JsonStrings) (path : HierarchyPath) :
    ((∃ text, path.toVerilog = .ok text) ↔ ∀ component ∈ path.components,
      component ≠ [] ∧ ∀ b ∈ textBytes component, 33 ≤ b ∧ b ≤ 126) ∧
    ∀ text, path.toVerilog = .ok text → parse json text = .ok path := by
  obtain ⟨components⟩ := path
  simp only [← spellable_iff]
  cases components with
  | nil =>
    refine ⟨⟨fun _ component hmem => absurd hmem List.not_mem_nil, fun _ => ⟨[], rfl⟩⟩,
      fun text htext => ?_⟩
    cases htext
    rw [parse, parseLoop]
    rfl
  | cons name components =>
    have hwritten : ∀ text, toVerilog ⟨name :: components⟩ = .ok text ↔
        (∀ component ∈ name :: components, spellable component = true) ∧
          text = '\\' :: (name ++ ' ' :: spelled components) := by
      intro text
      rw [toVerilog, toVerilogLoop, List.forall_mem_cons]
      cases hname : spellable name with
      | false => exact ⟨(fun h => by cases h), fun h => by cases h.1.1⟩
      | true =>
        rw [Bool.not_true, if_neg Bool.false_ne_true, toVerilogLoop_eq_ok (by simp)]
        simp
    refine ⟨⟨fun htext => htext.elim fun text htext => ((hwritten text).1 htext).1,
      fun h => ⟨_, (hwritten _).2 ⟨h, rfl⟩⟩⟩, fun text htext => ?_⟩
    obtain ⟨hspellable, rfl⟩ := (hwritten text).1 htext
    rw [parse, parseLoop_spelled name components hspellable]
    rfl

example : toVerilog ⟨["top".toList, "a.b[0]\\".toList]⟩ =
    .ok "\\top .\\a.b[0]\\ ".toList := by decide

end HierarchyPath

end Ondas
