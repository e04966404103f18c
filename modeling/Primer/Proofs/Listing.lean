import Primer.Assembly
import Primer.Proofs.Text.Shown
import Primer.Proofs.Text.Words

/-!
# A listing tells the program

The texts with their labels, and the code of each routine and of the main
routine, can be read off a listing (`Assembly.listing_tells`). What cannot be
read off it are the prototypes.

The reading goes from the outside in. The listing is cut into its lines, and
these are cut into sections at the empty lines, of which there is one before
each routine and no other (`Assembly.sections_eq`). The line of a text is cut
at its first blank (`Assembly.constantLineIn_inj`). A line of code is cut into
its words, and `Instr.ofWords?` reads the instruction off these.

All of it needs names without blanks, commas and line feeds, since names are
not quoted.
-/

namespace Primer

open Text

/-! ## The words of an instruction -/

/-- The operation of a mnemonic. -/
def ArithOp.ofMnemonic? : String → Option ArithOp
  | "ADD" => some add
  | "SUB" => some sub
  | "MUL" => some mul
  | "DIV" => some div
  | "MOD" => some mod
  | _ => none

/-- The comparison of a mnemonic. -/
def Comparison.ofMnemonic? : String → Option Comparison
  | "lt" => some less
  | "le" => some lessEq
  | "eq" => some equal
  | _ => none

/-- The test of a mnemonic. -/
def ZeroTest.ofMnemonic? : String → Option ZeroTest
  | "eqz" => some zero
  | "nez" => some nonZero
  | _ => none

namespace Instr

/-- The names in an instruction: of places, labels and routines. -/
def names : Instr → List String
  | enter | leave | nop => []
  | label name | jump name | call name => [name]
  | set slot _ | setArgument _ slot | fetchResult slot | setResult slot
  | printInt slot | printString slot | readInt slot => [slot]
  | move dst src | intToStr dst src | strToInt dst src | loadString dst src =>
    [dst, src]
  | arith _ dst lhs rhs => [dst, lhs, rhs]
  | branchZero _ src ifTrue ifFalse => [src, ifTrue, ifFalse]
  | branchCompare _ lhs rhs ifTrue ifFalse => [lhs, rhs, ifTrue, ifFalse]

/-- The words of an instruction before its operands: those between the blanks
that indent it, and its mnemonic. -/
def opening : Instr → List String
  | label _ => []
  | enter => ["", "", "", "", "ENTER"]
  | leave => ["", "", "", "", "LEAVE"]
  | move _ _ => ["", "", "", "", "MOVE"]
  | set _ _ => ["", "", "", "", "SET"]
  | arith op _ _ _ => ["", "", "", "", op.mnemonic]
  | jump _ => ["", "", "", "", "JUMP"]
  | branchCompare op _ _ _ _ => ["", "", "", "", "BRANCH_CMP", op.mnemonic]
  | branchZero test _ _ _ => ["", "", "", "", "BRANCH_ZERO", test.mnemonic]
  | setArgument _ _ => ["", "", "", "", "SET_ARG"]
  | call _ => ["", "", "", "", "CALL"]
  | fetchResult _ => ["", "", "", "", "RETURN_VALUE"]
  | setResult _ => ["", "", "", "", "RETURN"]
  | loadString _ _ => ["", "", "", "", "LOAD_STRING"]
  | printInt _ => ["", "", "", "", "PRINT_INT"]
  | printString _ => ["", "", "", "", "PRINT_STRING"]
  | readInt _ => ["", "", "", "", "READ_INT"]
  | intToStr _ _ => ["", "", "", "", "INT_TO_STR"]
  | strToInt _ _ => ["", "", "", "", "STR_TO_INT"]
  | nop => ["", "", "", "", "NOP"]

/-- The operands of an instruction as they are shown. -/
def operands : Instr → List String
  | label name => [name ++ ":"]
  | set dst value => [dst, Decimal.ofInt64 value]
  | setArgument index src => [Decimal.ofNat index.toNat, src]
  | i => i.names

/-- The words of the opening are words. -/
theorem isWord_opening (i : Instr) : ∀ w ∈ i.opening, IsWord w := by
  cases i with
  | arith op =>
    simp only [opening]
    cases op <;> decide
  | branchCompare op =>
    simp only [opening]
    cases op <;> decide
  | branchZero test =>
    simp only [opening]
    cases test <;> decide
  | _ =>
    simp only [opening]
    decide

/-- The operands are words if the names are. -/
theorem isWord_operands {i : Instr} (h : ∀ x ∈ i.names, IsWord x) :
    ∀ w ∈ i.operands, IsWord w := by
  cases i with
  | label name =>
    intro w hw c hc
    rw [List.mem_singleton.mp hw, String.toList_append] at hc
    rcases List.mem_append.mp hc with hc | hc
    · exact h name (List.mem_singleton_self _) c hc
    · rw [List.mem_singleton.mp hc]
      decide
  | set dst value =>
    exact List.forall_mem_cons.mpr ⟨h dst (List.mem_singleton_self _),
      List.forall_mem_singleton.mpr (Decimal.isWord_ofInt64 value)⟩
  | setArgument index src =>
    exact List.forall_mem_cons.mpr ⟨Decimal.isWord_ofNat _, h⟩
  | _ => exact h

/-- **The instruction that has these words.** -/
def ofWords? : List String → Option Instr
  | [name] => some (label (String.ofList name.toList.dropLast))
  | ["", "", "", "", "ENTER"] => some enter
  | ["", "", "", "", "LEAVE"] => some leave
  | ["", "", "", "", "NOP"] => some nop
  | ["", "", "", "", "JUMP", target] => some (jump target)
  | ["", "", "", "", "CALL", callee] => some (call callee)
  | ["", "", "", "", "RETURN_VALUE", dst] => some (fetchResult dst)
  | ["", "", "", "", "RETURN", src] => some (setResult src)
  | ["", "", "", "", "PRINT_INT", src] => some (printInt src)
  | ["", "", "", "", "PRINT_STRING", src] => some (printString src)
  | ["", "", "", "", "READ_INT", dst] => some (readInt dst)
  | ["", "", "", "", "MOVE", dst, src] => some (move dst src)
  | ["", "", "", "", "SET", dst, value] =>
    (Decimal.read? value.toList).map (set dst)
  | ["", "", "", "", "SET_ARG", index, src] =>
    (Decimal.magnitude? index.toList).map fun m =>
      setArgument (UInt64.ofNat m) src
  | ["", "", "", "", "LOAD_STRING", dst, constant] =>
    some (loadString dst constant)
  | ["", "", "", "", "INT_TO_STR", dst, src] => some (intToStr dst src)
  | ["", "", "", "", "STR_TO_INT", dst, src] => some (strToInt dst src)
  | ["", "", "", "", mnemonic, dst, lhs, rhs] =>
    (ArithOp.ofMnemonic? mnemonic).map fun op => arith op dst lhs rhs
  | ["", "", "", "", "BRANCH_ZERO", mnemonic, src, ifTrue, ifFalse] =>
    (ZeroTest.ofMnemonic? mnemonic).map fun test =>
      branchZero test src ifTrue ifFalse
  | ["", "", "", "", "BRANCH_CMP", mnemonic, lhs, rhs, ifTrue, ifFalse] =>
    (Comparison.ofMnemonic? mnemonic).map fun op =>
      branchCompare op lhs rhs ifTrue ifFalse
  | _ => none

/-- **The words of an instruction tell it.** -/
theorem ofWords?_eq_some (i : Instr) :
    ofWords? (i.opening ++ i.operands) = some i := by
  cases i with
  | label name =>
    show some (label (String.ofList (name ++ ":").toList.dropLast)) = _
    rw [String.toList_append]
    show some (label (String.ofList (name.toList ++ [':']).dropLast)) = _
    rw [List.dropLast_concat, String.ofList_toList]
  | set dst value =>
    show (Decimal.read? (Decimal.ofInt64 value).toList).map (set dst) = _
    rw [Decimal.read?_toList_ofInt64, Option.map_some]
  | setArgument index src =>
    show (Decimal.magnitude? (Decimal.ofNat index.toNat).toList).map
      (fun m => setArgument (UInt64.ofNat m) src) = _
    rw [Decimal.ofNat, String.toList_ofList, Decimal.magnitude?_toDigits,
      Option.map_some, UInt64.ofNat_toNat]
  | arith op => cases op <;> rfl
  | branchCompare op => cases op <;> rfl
  | branchZero test => cases test <;> rfl
  | _ => rfl

theorem spells_indented {mnemonic : String} {opening operands : List String}
    (hopening : Spells ("    " ++ mnemonic) (opening ++ [""]))
    (h : ∀ w ∈ operands, IsWord w) (hne : operands ≠ []) :
    Spells (indented mnemonic operands) (opening ++ operands) :=
  hopening.append (.commas h) hne

/-- **An instruction spells its words.** -/
theorem spells_text {i : Instr} (h : ∀ x ∈ i.names, IsWord x) :
    Spells i.text (i.opening ++ i.operands) := by
  have hoperands := isWord_operands h
  cases i with
  | label name => exact .single (hoperands _ (List.mem_singleton_self _))
  | enter | leave | nop => decide
  | arith op =>
    refine spells_indented ?_ hoperands (List.cons_ne_nil _ _)
    simp only [opening]
    cases op <;> decide
  | branchCompare op =>
    refine spells_indented ?_ hoperands (List.cons_ne_nil _ _)
    simp only [opening]
    cases op <;> decide
  | branchZero test =>
    refine spells_indented ?_ hoperands (List.cons_ne_nil _ _)
    simp only [opening]
    cases test <;> decide
  | _ =>
    refine spells_indented ?_ hoperands (List.cons_ne_nil _ _)
    simp only [opening]
    decide

/-- **A legible instruction**: its names are words. -/
def IsLegible (i : Instr) : Prop := ∀ x ∈ i.names, IsWord x

instance (i : Instr) : Decidable i.IsLegible :=
  inferInstanceAs (Decidable (∀ x ∈ i.names, IsWord x))

namespace IsLegible

variable {i j : Instr}

theorem isWord (h : i.IsLegible) : ∀ w ∈ i.opening ++ i.operands, IsWord w :=
  List.forall_mem_append.mpr ⟨isWord_opening i, isWord_operands h⟩

/-- **A legible instruction is read off its text.** -/
theorem ofWords?_words (h : i.IsLegible) :
    ofWords? (words i.text) = some i := by
  have hne : i.opening ++ i.operands ≠ [] := by
    intro hnil
    have hread := ofWords?_eq_some i
    rw [hnil] at hread
    cases hread
  rw [(spells_text h).words_eq h.isWord hne, ofWords?_eq_some]

theorem text_inj (hi : i.IsLegible) (hj : j.IsLegible)
    (h : i.text = j.text) : i = j := by
  have hread := hi.ofWords?_words
  rw [h, hj.ofWords?_words] at hread
  exact (Option.some.inj hread).symm

theorem newline_notMem (h : i.IsLegible) : '\n' ∉ i.text.toList :=
  (spells_text h).newline_notMem h.isWord

/-- No instruction has an empty line for its text. -/
theorem text_ne_empty (h : i.IsLegible) : i.text ≠ "" := by
  intro hempty
  have hread := h.ofWords?_words
  rw [hempty] at hread
  -- an empty line would be read as a label without a name, and that has a colon
  have hlabel : label "" = i := Option.some.inj hread
  rw [← hlabel] at hempty
  exact absurd hempty (by decide)

end IsLegible

end Instr

/-! ## Lists of lines -/

/-- Sections are joined by putting the separator before each but the first. -/
theorem intercalate_singleton_cons {α : Type} (sep : α) (first : List α)
    (others : List (List α)) :
    [sep].intercalate (first :: others)
      = first ++ others.flatMap (sep :: ·) := by
  induction others generalizing first with
  | nil => simp
  | cons second others ih =>
    rw [List.intercalate_cons_cons, ih, List.flatMap_cons, List.append_assoc]
    rfl

namespace Assembly

/-! ## Reading a listing -/

/-- **A legible program**: its labels and the names in its code are words. -/
structure IsLegible (a : Assembly) : Prop where
  /-- So are the labels of the texts. -/
  constants : ∀ constant ∈ a.symbols.constants, IsWord constant.1
  /-- So are the names in each routine. -/
  code : ∀ r ∈ a.routines ++ [a.main], ∀ i ∈ r.code, i.IsLegible

/-- The line of a text, its characters shown in some way. -/
def constantLineIn (shown : Char → List Char) (constant : Label × String) :
    String :=
  constant.1 ++ ": " ++ quoteIn shown constant.2

/-- The sections of a listing: the texts, then each routine. -/
def sections (shown : Char → List Char) (a : Assembly) : List (List String) :=
  a.symbols.constants.map (constantLineIn shown)
    :: (a.routines ++ [a.main]).map Routine.lines

/-- **A listing**, the characters of its texts shown in some way. -/
def listingIn (shown : Char → List Char) (a : Assembly) : String :=
  joinLines ([""].intercalate (a.sections shown))

theorem listing_eq (a : Assembly) : a.listing = a.listingIn escape := by
  rw [listingIn, sections, intercalate_singleton_cons, List.flatMap_map]
  rfl

/-- **What a listing tells of two programs** if it is the listing of both. -/
structure SameListed (a b : Assembly) : Prop where
  /-- They have the same texts under the same labels, in the same order. -/
  constants : a.symbols.constants = b.symbols.constants
  /-- They have as many routines. -/
  routines_length : a.routines.length = b.routines.length
  /-- Each routine has the same code. -/
  routines_code : a.routines.map Routine.code = b.routines.map Routine.code
  /-- So has the main routine. -/
  main_code : a.main.code = b.main.code

section

variable {shown : Char → List Char} (hshown : ∀ c, Escapes c (shown c))
  {a b : Assembly}

include hshown

/-- **The line of a text tells its label and the text.** -/
theorem constantLineIn_inj {c d : Label × String} (hc : IsWord c.1)
    (hd : IsWord d.1) (h : constantLineIn shown c = constantLineIn shown d) :
    c = d := by
  -- the blank after the colon is the first one, since a label has none
  have hcut : ∀ e : Label × String, (constantLineIn shown e).toList
      = (e.1.toList ++ [':']) ++ ' ' :: (quoteIn shown e.2).toList := by
    intro e
    rw [constantLineIn, String.toList_append, String.toList_append,
      List.append_assoc, List.append_assoc]
    rfl
  have hblank : ∀ {e : Label × String}, IsWord e.1 →
      ' ' ∉ e.1.toList ++ [':'] := by
    intro e he hmem
    rcases List.mem_append.mp hmem with hmem | hmem
    · exact (he ' ' hmem).1 rfl
    · exact absurd hmem (by decide)
  have hchars := congrArg String.toList h
  rw [hcut, hcut] at hchars
  obtain ⟨hlabel, htext⟩ :=
    append_cons_inj_of_first (hblank hc) (hblank hd) hchars
  exact Prod.ext (String.toList_inj.mp (List.append_cancel_right hlabel))
    (quoteIn_injective hshown (String.toList_inj.mp htext))

/-- The line of a text is one line, and not the empty one. -/
theorem constantLineIn_isLine {c : Label × String} (hc : IsWord c.1) :
    '\n' ∉ (constantLineIn shown c).toList ∧ constantLineIn shown c ≠ "" := by
  refine ⟨?_, fun h => ?_⟩
  · rw [constantLineIn, String.toList_append, String.toList_append,
      List.mem_append, List.mem_append]
    rintro ((h | h) | h)
    · exact (hc _ h).2.2 rfl
    · exact absurd h (by decide)
    · exact newline_notMem_quoteIn hshown c.2 h
  · have hlen := congrArg String.length h
    rw [constantLineIn, String.length_append, String.length_append] at hlen
    have hcolon : (": " : String).length = 2 := rfl
    have hempty : ("" : String).length = 0 := rfl
    omega

/-- **The lines of a section** are lines, and none of them is empty. -/
theorem sections_isLine (ha : a.IsLegible) :
    ∀ lines ∈ a.sections shown, ∀ line ∈ lines,
      '\n' ∉ line.toList ∧ line ≠ "" := by
  intro lines hlines line hline
  rcases List.mem_cons.mp hlines with rfl | hlines
  · obtain ⟨constant, hconstant, rfl⟩ := List.mem_map.mp hline
    exact constantLineIn_isLine hshown (ha.constants constant hconstant)
  · obtain ⟨r, hr, rfl⟩ := List.mem_map.mp hlines
    obtain ⟨i, hi, rfl⟩ := List.mem_map.mp hline
    have hlegible := ha.code r hr i hi
    exact ⟨hlegible.newline_notMem, hlegible.text_ne_empty⟩

/-- **A listing tells its sections.** -/
theorem sections_eq (ha : a.IsLegible) (hb : b.IsLegible)
    (h : a.listingIn shown = b.listingIn shown) :
    a.sections shown = b.sections shown := by
  have hlines : ∀ {p : Assembly}, p.IsLegible →
      ∀ line ∈ [""].intercalate (p.sections shown), '\n' ∉ line.toList := by
    intro p hp line hline
    rcases mem_of_mem_intercalate hline with hline | ⟨lines, hlines, hline⟩
    · rw [List.mem_singleton.mp hline]
      decide
    · exact (sections_isLine hshown hp lines hlines line hline).1
  -- the empty lines are those between the sections, and no others
  have hcut : ∀ {p : Assembly}, p.IsLegible →
      ([""].intercalate (p.sections shown)).splitOn "" = p.sections shown :=
    fun {p} hp => List.splitOn_intercalate "" (fun lines hmem hempty =>
      (sections_isLine hshown hp lines hmem "" hempty).2 rfl)
      (List.cons_ne_nil _ _)
  rw [← hcut ha, ← hcut hb, joinLines_inj (hlines ha) (hlines hb) h]

/-- **The sections tell the texts and the code.** -/
theorem sameListed_of_sections (ha : a.IsLegible) (hb : b.IsLegible)
    (h : a.sections shown = b.sections shown) : a.SameListed b := by
  obtain ⟨htexts, hroutines⟩ := List.cons.inj h
  have hlines : ∀ rs : List Routine, rs.map Routine.lines
      = (rs.map Routine.code).map (List.map Instr.text) := by
    intro rs
    rw [List.map_map]
    rfl
  rw [hlines, hlines] at hroutines
  have hcodes : (a.routines ++ [a.main]).map Routine.code
      = (b.routines ++ [b.main]).map Routine.code := by
    refine map_inj_of_mem ?_ hroutines
    intro code hcode code' hcode' htext
    obtain ⟨r, hr, rfl⟩ := List.mem_map.mp hcode
    obtain ⟨r', hr', rfl⟩ := List.mem_map.mp hcode'
    exact map_inj_of_mem (fun i hi j hj =>
      (ha.code r hr i hi).text_inj (hb.code r' hr' j hj)) htext
  rw [List.map_append, List.map_append] at hcodes
  obtain ⟨hroutines, hmain⟩ := List.append_inj' hcodes rfl
  exact {
    constants := map_inj_of_mem (fun c hc d hd =>
      constantLineIn_inj hshown (ha.constants c hc) (hb.constants d hd)) htexts
    routines_length := by simpa using congrArg List.length hroutines
    routines_code := hroutines
    main_code := List.singleton_inj.mp hmain }

end

/-- **A listing tells the program**: programs with the same listing have the
same texts under the same labels, as many routines, and the same code in each
of them and in the main routine. So it is in whatever way the characters of the
texts are shown, as long as the quote, the backslash and the line feed are
escaped. -/
theorem listing_tells {a b : Assembly} (ha : a.IsLegible) (hb : b.IsLegible) :
    (a.listing = b.listing → a.SameListed b)
      ∧ ∀ shown, (∀ c, Escapes c (shown c)) →
        a.listingIn shown = b.listingIn shown → a.SameListed b := by
  have htells : ∀ shown, (∀ c, Escapes c (shown c)) →
      a.listingIn shown = b.listingIn shown → a.SameListed b :=
    fun shown hshown h =>
      sameListed_of_sections hshown ha hb (sections_eq hshown ha hb h)
  refine ⟨fun h => htells escape escapes_escape ?_, htells⟩
  rw [← listing_eq, ← listing_eq, h]

/-- Code that writes a text with a quote and a line feed, in a routine of this
name. -/
def quoting (name : Ident) : Assembly where
  routines := [⟨⟨name, [], .unit, .nested 0⟩,
    [.enter, .loadString "_v_1" "_str_0", .printString "_v_1",
      .label "_leave_2", .leave]⟩]
  main := ⟨⟨"main", [], .unit, .nested 1⟩, []⟩
  symbols := { SymbolTable.empty with
    global := ⟨"<global>", [⟨"_str_0", .constant "\"a\n: \"", none⟩]⟩ }

/-- The name of a routine is not in the listing, and all else is told. -/
theorem listing_tells_quoting :
    quoting "f" ≠ quoting "g" ∧ (quoting "f").SameListed (quoting "g") := by
  have hf : (quoting "f").IsLegible := ⟨by decide, by decide⟩
  have hg : (quoting "g").IsLegible := ⟨by decide, by decide⟩
  exact ⟨by decide, (listing_tells hf hg).1 rfl⟩

end Assembly

end Primer
