import Primer.Proofs.Drawing.Walk
import Primer.Proofs.Histories.Basic
import Primer.Proofs.Text.Outlines

/-!
# A drawing tells the table

Two histories that name nothing with blanks or line feeds and come to the same
drawing come to the same scopes and symbols
(`SymbolTable.drawing_loses_nothing`).

The levels of a drawing are told by its forks and rails (`Outline.render_inj`),
so what is to be told is which node of the outline is what. Below the global
scope there are scopes and symbols. The line of a symbol has a blank, and that
of a scope has none, as long as no owner has one. In the line of a symbol, the
name and maybe a colon end at the first blank, and what follows the blank tells
the kind, the type and the text (`Symbol.IsLegible.textIn_inj`).

That symbols are as it takes for this is kept by each of the five things that
an operation can do (`SymbolTable.IsLegible.does`). Places have types, and
nothing else has.
-/

namespace Primer

open Text

/-! ## Symbols are told -/

/-- **A name that is not broken**: no blanks and no line feeds. -/
def IsUnbroken (s : String) : Prop := ' ' ∉ s.toList ∧ '\n' ∉ s.toList

instance (s : String) : Decidable (IsUnbroken s) :=
  inferInstanceAs (Decidable (_ ∧ _))

theorem IsUnbroken.append {s s' : String} (h : IsUnbroken s)
    (h' : IsUnbroken s') : IsUnbroken (s ++ s') := by
  unfold IsUnbroken
  rw [String.toList_append, List.mem_append, List.mem_append]
  exact ⟨not_or.mpr ⟨h.1, h'.1⟩, not_or.mpr ⟨h.2, h'.2⟩⟩

theorem isUnbroken_ofNat (n : Nat) : IsUnbroken (Decimal.ofNat n) :=
  ⟨fun h => absurd (isDigit_of_mem_ofNat h) (by decide),
    fun h => absurd (isDigit_of_mem_ofNat h) (by decide)⟩

namespace Ty

theorem name_inj {ty ty' : Ty} (h : ty.name = ty'.name) : ty = ty' := by
  cases ty <;> cases ty' <;> first | rfl | exact absurd h (by decide)

theorem blank_notMem_name (ty : Ty) : ' ' ∉ ty.name.toList := by
  cases ty <;> decide

end Ty

namespace Symbol

/-- The kinds of places. -/
inductive IsPlace : SymbolKind → Prop
  /-- A parameter. -/
  | formal : IsPlace .formal
  /-- A variable. -/
  | introduced : IsPlace .introduced
  /-- A temporary. -/
  | temporary : IsPlace .temporary

/-- **A symbol as tables have it**, with an unbroken name. -/
inductive IsLegible : Symbol → Prop
  /-- Places have a type. -/
  | place {name : String} {kind : SymbolKind} (ty : Ty)
    (hname : IsUnbroken name) (hkind : IsPlace kind) :
    IsLegible ⟨name, kind, some ty⟩
  /-- Positions have none. -/
  | label {name : String} (hname : IsUnbroken name) : IsLegible (.label name)
  /-- Texts have none. -/
  | constant {name : String} (text : String) (hname : IsUnbroken name) :
    IsLegible (.constant name text)

/-- What is shown of a symbol before the first blank. -/
def opening (s : Symbol) : List Char :=
  match s.ty? with
  | some _ => s.name.toList ++ [':']
  | none => s.name.toList

/-- What is shown of a symbol after the first blank. -/
def remark (quoted : String → String) (s : Symbol) : List Char :=
  match s.kind, s.ty? with
  | .constant text, _ => '=' :: ' ' :: (quoted text).toList
  | .label, _ => "(label)".toList
  | kind, some ty =>
    ty.name.toList ++ ' ' :: '(' :: (kind.name.toList ++ [')'])
  | _, none => []

theorem IsPlace.name_inj {kind kind' : SymbolKind} (h : IsPlace kind)
    (h' : IsPlace kind') (heq : kind.name = kind'.name) : kind = kind' := by
  cases h <;> cases h' <;> first | rfl | exact absurd heq (by decide)

theorem remark_place {quoted : String → String} {name : String}
    {kind : SymbolKind} {ty : Ty} (h : IsPlace kind) :
    remark quoted ⟨name, kind, some ty⟩
      = ty.name.toList ++ ' ' :: '(' :: (kind.name.toList ++ [')']) := by
  cases h <;> rfl

theorem remark_place_ne {quoted : String → String} {name : String}
    {kind : SymbolKind} {ty : Ty} (h : IsPlace kind) {c : Char}
    (hc : c ∈ ['=', '(']) (rest : List Char) :
    remark quoted ⟨name, kind, some ty⟩ ≠ c :: rest := by
  intro heq
  rw [remark_place h] at heq
  cases ty <;> obtain rfl := (List.cons.inj heq).1 <;>
    exact absurd hc (by decide)

namespace IsLegible

variable {quoted : String → String} {s s' : Symbol}

theorem name (h : s.IsLegible) : IsUnbroken s.name := by
  cases h <;> assumption

/-- A symbol is shown with a blank after the opening. -/
theorem toList_textIn (h : s.IsLegible) :
    (s.textIn quoted).toList = s.opening ++ ' ' :: s.remark quoted := by
  cases h with
  | place ty _ hkind =>
    cases hkind <;> simp [textIn, opening, remark]
  | label => simp [textIn, opening, remark, Symbol.label]
  | constant => simp [textIn, opening, remark, Symbol.constant]

/-- In the opening there is the name, and maybe a colon. -/
theorem notMem_opening {c : Char} (hc : c ∉ s.name.toList) (hcolon : c ≠ ':') :
    c ∉ s.opening := by
  unfold opening
  split
  · rw [List.mem_append, List.mem_singleton]
    exact not_or.mpr ⟨hc, hcolon⟩
  · exact hc

/-- **The kind and the type are told** by what follows the blank. -/
theorem remark_inj (hquoted : Function.Injective quoted) (h : s.IsLegible)
    (h' : s'.IsLegible) (heq : s.remark quoted = s'.remark quoted) :
    s.kind = s'.kind ∧ s.ty? = s'.ty? := by
  cases h with
  | constant text =>
    cases h' with
    | constant text' =>
      obtain ⟨-, htext⟩ := List.cons.inj (List.cons.inj heq).2
      rw [hquoted (String.toList_inj.mp htext)]
      exact ⟨rfl, rfl⟩
    | label => exact absurd (List.cons.inj heq).1 (by decide)
    | place _ _ hkind =>
      exact absurd heq.symm (remark_place_ne hkind (by decide) _)
  | label =>
    cases h' with
    | constant => exact absurd (List.cons.inj heq).1 (by decide)
    | label => exact ⟨rfl, rfl⟩
    | place _ _ hkind =>
      exact absurd heq.symm (remark_place_ne hkind (by decide) _)
  | place ty _ hkind =>
    cases h' with
    | constant => exact absurd heq (remark_place_ne hkind (by decide) _)
    | label => exact absurd heq (remark_place_ne hkind (by decide) _)
    | place ty' _ hkind' =>
      -- the type ends at the blank, and the kind is in parentheses
      rw [remark_place hkind, remark_place hkind'] at heq
      obtain ⟨hty, hrest⟩ := append_cons_inj_of_first ty.blank_notMem_name
        ty'.blank_notMem_name heq
      have hname := List.append_cancel_right (List.cons.inj hrest).2
      exact ⟨hkind.name_inj hkind' (String.toList_inj.mp hname),
        congrArg some (Ty.name_inj (String.toList_inj.mp hty))⟩

/-- **A symbol is told by its line.** -/
theorem textIn_inj (hquoted : Function.Injective quoted) (h : s.IsLegible)
    (h' : s'.IsLegible) (heq : s.textIn quoted = s'.textIn quoted) :
    s = s' := by
  have hchars := congrArg String.toList heq
  rw [h.toList_textIn, h'.toList_textIn] at hchars
  obtain ⟨hopening, hremark⟩ := append_cons_inj_of_first
    (notMem_opening h.name.1 (by decide))
    (notMem_opening h'.name.1 (by decide)) hchars
  obtain ⟨hkind, hty⟩ := remark_inj hquoted h h' hremark
  have hname : s.name = s'.name := by
    unfold opening at hopening
    rw [hty] at hopening
    split at hopening
    · exact String.toList_inj.mp (List.append_cancel_right hopening)
    · exact String.toList_inj.mp hopening
  obtain ⟨name, kind, ty?⟩ := s
  cases hname
  cases hkind
  cases hty
  rfl

/-- A symbol is on one line if texts are quoted on one. -/
theorem newline_notMem_textIn (hline : ∀ text, '\n' ∉ (quoted text).toList)
    (h : s.IsLegible) : '\n' ∉ (s.textIn quoted).toList := by
  have hopening := notMem_opening h.name.2 (by decide)
  have hremark : '\n' ∉ s.remark quoted := by
    cases h with
    | place ty _ hkind =>
      rw [remark_place hkind]
      cases hkind <;> cases ty <;> decide
    | label =>
      show '\n' ∉ "(label)".toList
      decide
    | constant text =>
      show '\n' ∉ ['=', ' '] ++ (quoted text).toList
      rw [List.mem_append]
      exact not_or.mpr ⟨by decide, hline text⟩
  rw [h.toList_textIn, List.mem_append, List.mem_cons]
  exact not_or.mpr ⟨hopening, not_or.mpr ⟨by decide, hremark⟩⟩

end IsLegible

end Symbol

/-! ## Tables are told -/

/-- **A scope whose lines can be read**: the owner is unbroken, and the symbols
are legible. -/
structure Scope.IsLegible (s : Scope) : Prop where
  /-- The owner. -/
  owner : IsUnbroken s.owner
  /-- The symbols. -/
  symbols : ∀ symbol ∈ s.newestFirst, symbol.IsLegible

namespace Scope.IsLegible

variable {s s' : Scope}

theorem push (h : s.IsLegible) {symbol : Symbol} (hsymbol : symbol.IsLegible) :
    (s.push symbol).IsLegible :=
  ⟨h.owner, List.forall_mem_cons.mpr ⟨hsymbol, h.symbols⟩⟩

theorem of_mem_symbols (h : s.IsLegible) {symbol : Symbol}
    (hmem : symbol ∈ s.symbols) : symbol.IsLegible :=
  h.symbols symbol (List.mem_reverse.mp hmem)

end Scope.IsLegible

namespace SymbolTable

variable {quoted : String → String} {t t' : SymbolTable} {s s' : Scope}

/-- **The symbols of a scope are told** by what is drawn below it. -/
theorem leavesIn_inj (hquoted : Function.Injective quoted) (h : s.IsLegible)
    (h' : s'.IsLegible) (heq : leavesIn quoted s = leavesIn quoted s') :
    s.newestFirst = s'.newestFirst := by
  have hsymbols : s.symbols = s'.symbols :=
    map_inj_of_mem (fun symbol hs symbol' hs' hnode =>
      (h.of_mem_symbols hs).textIn_inj hquoted (h'.of_mem_symbols hs')
        (Outline.node.inj hnode).1) heq
  exact List.reverse_injective hsymbols

/-- **A scope is told** by its owner and what is drawn below it. -/
theorem branchIn_inj (hquoted : Function.Injective quoted) (h : s.IsLegible)
    (h' : s'.IsLegible) (heq : branchIn quoted s = branchIn quoted s') :
    s = s' := by
  obtain ⟨howner, hleaves⟩ := Outline.node.inj heq
  have hsymbols := leavesIn_inj hquoted h h' hleaves
  obtain ⟨owner, newestFirst⟩ := s
  cases howner
  cases hsymbols
  rfl

/-- **A table whose drawing can be read.** -/
structure IsLegible (t : SymbolTable) : Prop where
  /-- The global scope is legible. -/
  global : t.global.IsLegible
  /-- The nested scopes are. -/
  nested : ∀ s ∈ t.nested, s.IsLegible

/-- Whether a node's text has a blank, as the texts of symbols have. -/
def hasBlank : Outline → Bool
  | .node text _ => text.toList.contains ' '

/-- The texts of symbols have a blank. -/
theorem filter_leavesIn (h : s.IsLegible) :
    (leavesIn quoted s).filter hasBlank = leavesIn quoted s := by
  refine List.filter_eq_self.mpr fun o ho => ?_
  obtain ⟨symbol, hsymbol, rfl⟩ := List.mem_map.mp ho
  rw [hasBlank, (h.of_mem_symbols hsymbol).toList_textIn]
  exact List.contains_iff_mem.mpr
    (List.mem_append_right _ (List.mem_cons_self ..))

theorem filter_branchesIn {ss : List Scope} (h : ∀ s ∈ ss, s.IsLegible) :
    (ss.map (branchIn quoted)).filter hasBlank = [] := by
  refine List.filter_eq_nil_iff.mpr fun o ho => ?_
  obtain ⟨s, hs, rfl⟩ := List.mem_map.mp ho
  exact fun hblank => (h s hs).owner.1 (List.contains_iff_mem.mp hblank)

/-- **The scopes and symbols are told** by the outline. -/
theorem IsLegible.outlineIn_inj (hquoted : Function.Injective quoted)
    (h : t.IsLegible) (h' : t'.IsLegible)
    (heq : t.outlineIn quoted = t'.outlineIn quoted) :
    t.global = t'.global ∧ t.nested = t'.nested := by
  obtain ⟨howner, hchildren⟩ := Outline.node.inj heq
  -- the nodes with a blank are the global symbols
  have hleaves : leavesIn quoted t.global = leavesIn quoted t'.global := by
    have hblanks := congrArg (List.filter hasBlank) hchildren
    rwa [List.filter_append, List.filter_append, filter_branchesIn h.nested,
      filter_branchesIn h'.nested, filter_leavesIn h.global,
      filter_leavesIn h'.global] at hblanks
  rw [hleaves] at hchildren
  have hglobal : branchIn quoted t.global = branchIn quoted t'.global := by
    rw [branchIn, branchIn, howner, hleaves]
  exact ⟨branchIn_inj hquoted h.global h'.global hglobal,
    map_inj_of_mem (fun s hs s' hs' =>
      branchIn_inj hquoted (h.nested s hs) (h'.nested s' hs'))
      (List.append_cancel_right hchildren)⟩

theorem isFlat_leavesIn (hline : ∀ text, '\n' ∉ (quoted text).toList)
    (h : s.IsLegible) : ∀ o ∈ leavesIn quoted s, o.IsFlat := by
  intro o ho
  obtain ⟨symbol, hsymbol, rfl⟩ := List.mem_map.mp ho
  exact .node ((h.of_mem_symbols hsymbol).newline_notMem_textIn hline) nofun

theorem IsLegible.isFlat (hline : ∀ text, '\n' ∉ (quoted text).toList)
    (h : t.IsLegible) : (t.outlineIn quoted).IsFlat := by
  refine .node h.global.owner.2 (List.forall_mem_append.mpr ⟨fun o ho => ?_,
    isFlat_leavesIn hline h.global⟩)
  obtain ⟨s, hs, rfl⟩ := List.mem_map.mp ho
  exact .node (h.nested s hs).owner.2 (isFlat_leavesIn hline (h.nested s hs))

/-! ## Histories without broken names -/

/-- A changed scope leaves a table legible if it stays legible itself. -/
theorem IsLegible.modify (h : t.IsLegible) (id : ScopeId)
    {change : Scope → Scope}
    (hchange : ∀ s : Scope, s.IsLegible → (change s).IsLegible) :
    (t.modify id change).IsLegible := by
  cases id with
  | global => exact ⟨hchange _ h.global, h.nested⟩
  | nested i =>
    have hnested : ∀ s ∈ t.nested.modify i change, s.IsLegible := by
      intro s hs
      obtain ⟨j, hj, rfl⟩ := List.mem_iff_getElem.mp hs
      have hlegible : ∀ k (hk : k < t.nested.length),
          t.nested[k].IsLegible :=
        fun k hk => h.nested _ (List.getElem_mem hk)
      rw [List.getElem_modify]
      split
      · exact hchange _ (hlegible j _)
      · exact hlegible j _
    exact ⟨h.global, hnested⟩

end SymbolTable

/-- The names that an operation is given: of an owner, of what is declared, and
the hint of a label. -/
def Operation.names : Operation → List String
  | addScope owner => [owner]
  | declare _ name _ => [name]
  | label _ hint => hint.toList
  | temporary _ _ | intern _ => []

/-- **Whether an operation is given unbroken names only.** -/
def Operation.IsLegible (op : Operation) : Prop :=
  ∀ name ∈ op.names, IsUnbroken name

instance (op : Operation) : Decidable op.IsLegible :=
  List.decidableBAll _ op.names

theorem Declaration.isLegible_symbol {name : String} (h : IsUnbroken name)
    (what : Declaration) : (what.symbol name).IsLegible := by
  cases what with
  | formal ty => exact .place ty h .formal
  | introduced ty => exact .place ty h .introduced
  | label => exact .label h

namespace SymbolTable

variable {t : SymbolTable}

/-- What is made up from an unbroken hint is legible. -/
theorem Making.isLegible {op : Operation} {stem : String} {id : ScopeId}
    {symbol : String → Symbol} (h : Making t op stem id symbol)
    (hop : op.IsLegible) (n : Nat) :
    (symbol (stem ++ Decimal.ofNat n)).IsLegible := by
  cases h with
  | temporary id ty =>
    exact .place ty (.append (by decide) (isUnbroken_ofNat n)) .temporary
  | label id hint =>
    have hhint : IsUnbroken (hint.getD "L") := by
      cases hint with
      | none => decide
      | some hint => exact hop hint (List.mem_singleton_self _)
    exact .label (.append (.append (by decide) hhint) (isUnbroken_ofNat n))
  | constant =>
    exact .constant _ (.append (by decide) (isUnbroken_ofNat n))

/-- **Each of the five things that an operation can do** leaves a table
legible. -/
theorem IsLegible.does (h : t.IsLegible) {op : Operation} {answer : Answer}
    {t' : SymbolTable} (hop : op.IsLegible) (hdoes : Does t op answer t') :
    t'.IsLegible := by
  cases hdoes with
  | opened owner =>
    have hscope : (Scope.empty owner).IsLegible :=
      ⟨hop owner (List.mem_singleton_self _), nofun⟩
    exact ⟨h.global, List.forall_mem_append.mpr
      ⟨h.nested, List.forall_mem_singleton.mpr hscope⟩⟩
  | declared what hnew =>
    exact h.modify _ fun s hs =>
      hs.push (what.isLegible_symbol (hop _ (List.mem_singleton_self _)))
  | made hmaking =>
    have hcounted : IsLegible { t with counter := t.counter + 1 } :=
      ⟨h.global, h.nested⟩
    exact hcounted.modify _ fun s hs => hs.push (hmaking.isLegible hop _)
  | refused | recalled => exact h

/-- Operations that are in order wherever they are performed are in order. -/
theorem along_of_forall {InOrder : Operation → Prop} {ops : List Operation}
    (h : ∀ op ∈ ops, InOrder op) (t : SymbolTable) :
    t.Along (fun _ => InOrder) ops := by
  induction ops generalizing t with
  | nil => trivial
  | cons op ops ih =>
    obtain ⟨hop, hops⟩ := List.forall_mem_cons.mp h
    exact ⟨hop, ih hops _⟩

/-- **A history without broken names makes a legible table.** -/
theorem isLegible_after {ops : List Operation} (h : ∀ op ∈ ops, op.IsLegible) :
    (empty.after ops).IsLegible := by
  have hempty : empty.IsLegible := ⟨⟨by decide, nofun⟩, nofun⟩
  exact @history_induction _ (fun _ t => t.IsLegible) hempty
    (fun ht hop hdoes => ht.does hop hdoes) ops (along_of_forall h empty)

/-- **Drawings that lose nothing**: both are drawings of their tables, and if
they are the same text, the tables have the same scopes, in the order in which
they were opened, with the same owners and the same symbols in the same order.
-/
structure LosesNothing (quoted : String → String) (t t' : SymbolTable)
    (text text' : String) : Prop where
  /-- One table is drawn. -/
  drawn : t.IsDrawn quoted text
  /-- The other is. -/
  other_drawn : t'.IsDrawn quoted text'
  /-- The scopes are told by the text. -/
  told : text = text' → t.global = t'.global ∧ t.nested = t'.nested

theorem IsLegible.losesNothing {t t' : SymbolTable} (h : t.IsLegible)
    (h' : t'.IsLegible) {quoted : String → String}
    (hquoted : Function.Injective quoted)
    (hline : ∀ text, '\n' ∉ (quoted text).toList) :
    LosesNothing quoted t t' (t.outlineIn quoted).render
      (t'.outlineIn quoted).render where
  drawn := isDrawn quoted t
  other_drawn := isDrawn quoted t'
  told heq := h.outlineIn_inj hquoted h'
    (Outline.render_inj (h.isFlat hline) (h'.isFlat hline) heq)

/-- **The drawing of a table loses nothing**, after any history without broken
names. So it is in whatever way texts are quoted, as long as they are told by
that and stay on one line. -/
theorem drawing_loses_nothing {ops ops' : List Operation}
    (h : ∀ op ∈ ops, op.IsLegible) (h' : ∀ op ∈ ops', op.IsLegible) :
    let t := empty.after ops
    let t' := empty.after ops'
    LosesNothing quote t t' t.outline.render t'.outline.render
    ∧ ∀ quoted : String → String, Function.Injective quoted →
      (∀ text, '\n' ∉ (quoted text).toList) →
      LosesNothing quoted t t' (t.outlineIn quoted).render
        (t'.outlineIn quoted).render := by
  intro t t'
  have ht : t.IsLegible := isLegible_after h
  have ht' : t'.IsLegible := isLegible_after h'
  have hquoted : Function.Injective quote := quoteIn_injective escapes_escape
  have hline : ∀ text, '\n' ∉ (quote text).toList :=
    newline_notMem_quoteIn escapes_escape
  refine ⟨?_, fun quoted hquoted hline =>
    ht.losesNothing ht' hquoted hline⟩
  rw [← outlineIn_quote t, ← outlineIn_quote t']
  exact ht.losesNothing ht' hquoted hline

/-- A history that comes to a scope with a parameter and a label, and to one
text. -/
def sketch : List Operation :=
  [.intern "a\n", .addScope "f", .declare (.nested 0) "n" (.formal .int),
    .label (.nested 0) (some "end")]

/-- A history that comes to the same with detours. -/
def detour : List Operation :=
  [.addScope "f", .intern "a\n", .declare (.nested 0) "n" (.formal .int),
    .declare (.nested 0) "n" (.introduced .str), .intern "a\n",
    .label (.nested 0) (some "end")]

/-- The drawings are the same, and so are the scopes. -/
theorem drawing_loses_nothing_detour :
    (empty.after sketch).outline.render = (empty.after detour).outline.render
    ∧ (empty.after sketch).global = (empty.after detour).global
    ∧ (empty.after sketch).nested = (empty.after detour).nested := by
  have hsketch : ∀ op ∈ sketch, op.IsLegible := by decide
  have hdetour : ∀ op ∈ detour, op.IsLegible := by decide
  have hsame : (empty.after sketch).outline.render
      = (empty.after detour).outline.render := rfl
  exact ⟨hsame, (drawing_loses_nothing hsketch hdetour).1.told hsame⟩

/-- An owner with a blank may be drawn like a symbol. -/
example : (empty.after [.addScope "x (label)"]).outline.render
    = (empty.after [.declare .global "x" .label]).outline.render := rfl

end SymbolTable

end Primer
