import Primer.Proofs.Emission.Routines

/-!
# Texts and their names

A text is named when code first needs it, and the code runs over the table
that is there at the end of all emission. In between the table grows and the
names of routines are declared, and neither changes what a name of a text
means (`SymbolTable.Keeps`). The first holds because a made-up name is new
each time, the second because names of routines are plain.
-/

namespace Primer

namespace SymbolTable

variable {t t' t₁ t₂ symbols : SymbolTable} {id : ScopeId}

/-- **The names of texts go on to mean them.** -/
def Keeps (t t' : SymbolTable) : Prop :=
  ∀ label text, t.constant? label = some text → t'.constant? label = some text

theorem Keeps.trans (h : t.Keeps t₁) (h' : t₁.Keeps t₂) : t.Keeps t₂ :=
  fun label text hl => h' label text (h label text hl)

theorem Grows.keeps (h : Grows id t t') (ht : t.Tidy) : t.Keeps t' :=
  fun _ _ hl => h.constant? ht hl

/-- **Declaring the name of a routine** keeps a table tidy and keeps the names
of texts. -/
theorem Tidy.declare {name : Ident} (ht : t.Tidy) (hname : Ident.Plain name)
    (h : t.declare .global (.label name) = .ok t') :
    t'.Tidy ∧ t.Keeps t' := by
  -- the name is plain, so it is none that was made up or will be
  obtain ⟨hnone, rfl⟩ := declare_global_eq_ok h
  have hnew : ∀ s ∈ t.global.newestFirst,
      (Symbol.label name).name ≠ s.name := by
    rintro s hs rfl
    exact absurd (beq_self_eq_true s.name) (List.find?_eq_none.mp hnone s hs)
  constructor
  · exact ht.push hnew (Nat.le_refl _)
      fun hi hmade => hmade.not_plain hname
  · intro label text hl
    obtain ⟨s, hs, rfl, -⟩ := exists_of_constant? hl
    exact (constant?_push_of_ne t (hnew s hs)).trans hl

/-- **A stretch of emission**, from a tidy table to one whose names of texts
mean the same at the end. -/
structure Window (symbols t t' : SymbolTable) : Prop where
  /-- The names of texts are in order. -/
  tidy : t.Tidy
  /-- They stay what they are. -/
  keeps : t'.Keeps symbols

namespace Window

theorem later (h : Window symbols t t') (hbefore : Grows id t t₁) :
    Window symbols t₁ t' := ⟨h.tidy.grows hbefore, h.keeps⟩

/-- **A stretch consists of two.** -/
theorem halves (h : Window symbols t t') (hfirst : Grows id t t₁)
    (hrest : Grows id t₁ t') : Window symbols t t₁ ∧ Window symbols t₁ t' := by
  have hlater := h.later hfirst
  exact ⟨⟨h.tidy, (hrest.keeps hlater.tidy).trans h.keeps⟩, hlater⟩

theorem constant? (h : Window symbols t t') {text : String} {label : Label}
    (htext : t.intern text = (label, t')) :
    symbols.constant? label = some text :=
  h.keeps label text (h.tidy.constant?_intern htext)

end Window

end SymbolTable

open SymbolTable

/-! ## The texts that any code may print -/

/-- **Texts are named** as code expects them to be. -/
structure Constants.Mean (c : Constants) (symbols : SymbolTable) : Prop where
  /-- The end of a line. -/
  newline : symbols.constant? c.newline = some "\n"
  /-- What stands between two printed values. -/
  space : symbols.constant? c.space = some " "
  /-- The truth value that holds. -/
  yes : symbols.constant? c.yes = some "True"
  /-- The truth value that does not hold. -/
  no : symbols.constant? c.no = some "False"
  /-- The none value. -/
  unit : symbols.constant? c.unit = some "None"

/-- The texts that any code may print go on to be named. -/
theorem Constants.Mean.keeps {c : Constants} {t t' : SymbolTable}
    (h : c.Mean t) (hkeeps : t.Keeps t') : c.Mean t' where
  newline := hkeeps _ _ h.newline
  space := hkeeps _ _ h.space
  yes := hkeeps _ _ h.yes
  no := hkeeps _ _ h.no
  unit := hkeeps _ _ h.unit

/-- **The texts that any code may print are named** before any code is
emitted. -/
theorem Constants.Emits.mean {c : Constants} {t t' : SymbolTable}
    (h : c.Emits t t') (ht : t.Tidy) : c.Mean t' := by
  cases h with
  | @mk t₁ t₂ t₃ t₄ t' hnewline hspace hyes hno hunit =>
    have g₁ : Grows .global t t₁ := .intern hnewline
    have g₂ : Grows .global t₁ t₂ := .intern hspace
    have g₃ : Grows .global t₂ t₃ := .intern hyes
    have g₄ : Grows .global t₃ t₄ := .intern hno
    have g₅ : Grows .global t₄ t' := .intern hunit
    have h₁ := ht.grows g₁
    have h₂ := h₁.grows g₂
    have h₃ := h₂.grows g₃
    have h₄ := h₃.grows g₄
    exact {
      newline := ((((g₂.trans g₃).trans g₄).trans g₅).keeps h₁) _ _
        (ht.constant?_intern hnewline)
      space := (((g₃.trans g₄).trans g₅).keeps h₂) _ _
        (h₁.constant?_intern hspace)
      yes := ((g₄.trans g₅).keeps h₃) _ _ (h₂.constant?_intern hyes)
      no := (g₅.keeps h₄) _ _ (h₃.constant?_intern hno)
      unit := h₄.constant?_intern hunit }

/-! ## Routines -/

/-- **The code of a routine was emitted for a body**, and the texts that it
loads are named in the table. -/
structure Routine.Implements (r : Routine) (symbols : SymbolTable)
    (constants : Constants) (d : Definition Judged) : Prop where
  /-- The routine has the name of the body. -/
  name : r.name = d.name
  /-- Its parameters are those of the body. -/
  params : r.prototype.params = d.params
  /-- The code of the statements stands between the entry and the exit. -/
  body : ∃ site code t t', site.constants = constants
    ∧ r.code = .label r.name :: .enter :: code ++ [.label site.exit, .leave]
    ∧ Stmt.EmitsAll site d.body.stmts t code t' ∧ Window symbols t t'

/-- Code that was emitted for a body goes on to be when more texts are named.
-/
theorem Routine.Implements.keeps {r : Routine} {symbols symbols' : SymbolTable}
    {constants : Constants} {d : Definition Judged}
    (h : r.Implements symbols constants d) (hkeeps : symbols.Keeps symbols') :
    r.Implements symbols' constants d where
  name := h.name
  params := h.params
  body := by
    obtain ⟨site, code, t, t', hsite, hcode, hemits, hw⟩ := h.body
    exact ⟨site, code, t, t', hsite, hcode, hemits, hw.tidy,
      hw.keeps.trans hkeeps⟩

/-- **An emitted routine** implements its body, in any table that keeps the
names of texts. -/
theorem Definition.Emits.implements {constants : Constants}
    {d : Definition Judged} {t t' symbols : SymbolTable} {r : Routine}
    (h : d.Emits constants t r t') (ht : t.Tidy)
    (hname : Ident.Plain d.name) (hafter : t'.Keeps symbols) :
    r.Implements symbols constants d := by
  cases h with
  | mk _ hentry hexit hbody =>
    have htidy := (ht.declare hname hentry).1
    have gexit := (Takes.label (by simp) hexit).grows
    exact ⟨rfl, rfl, _, _, _, _, rfl, rfl, hbody,
      htidy.grows gexit, hafter⟩

/-- An emitted routine leaves a tidy table behind and keeps the names of
texts. -/
theorem Definition.Emits.tidy {constants : Constants} {d : Definition Judged}
    {t t' : SymbolTable} {r : Routine} (h : d.Emits constants t r t')
    (ht : t.Tidy) (hname : Ident.Plain d.name) : t'.Tidy ∧ t.Keeps t' := by
  cases h with
  | mk _ hentry hexit hbody =>
    obtain ⟨htidy, hkeeps⟩ := ht.declare hname hentry
    have grows := (Takes.label (by simp) hexit).grows.trans hbody.takes.grows
    exact ⟨htidy.grows grows, hkeeps.trans (grows.keeps htidy)⟩

namespace Definition.EmitsAll

variable {constants : Constants} {ds : List (Definition Judged)}
  {t t' symbols : SymbolTable} {rs : List Routine}

/-- Emitted routines leave a tidy table behind and keep the names of texts.
-/
theorem tidy (h : EmitsAll constants ds t rs t') (ht : t.Tidy)
    (hnames : ∀ d ∈ ds, Ident.Plain d.name) : t'.Tidy ∧ t.Keeps t' := by
  induction h with
  | nil => exact ⟨ht, fun _ _ => id⟩
  | cons hd _ ih =>
    obtain ⟨hname, hnames⟩ := List.forall_mem_cons.mp hnames
    obtain ⟨htidy, hkeeps⟩ := Definition.Emits.tidy hd ht hname
    obtain ⟨htidy', hkeeps'⟩ := ih htidy hnames
    exact ⟨htidy', hkeeps.trans hkeeps'⟩

/-- **The routine that a name means** implements the definition that the name
means. -/
theorem find?_implements (h : EmitsAll constants ds t rs t') (ht : t.Tidy)
    (hnames : ∀ d ∈ ds, Ident.Plain d.name) (hafter : t'.Keeps symbols)
    {callee : Ident} {d : Definition Judged}
    (hd : ds.find? (·.name == callee) = some d) :
    ∃ r, rs.find? (·.name == callee) = some r
      ∧ r.Implements symbols constants d := by
  induction h with
  | nil => cases hd
  | @cons first ds r rs t t₁ t' hfirst hrest ih =>
    obtain ⟨hname, hlater⟩ := List.forall_mem_cons.mp hnames
    have htidy := (Definition.Emits.tidy hfirst ht hname).1
    rw [List.find?_cons] at hd ⊢
    rw [hfirst.name_eq]
    split at hd
    · cases hd
      refine ⟨r, rfl, Definition.Emits.implements hfirst ht hname ?_⟩
      exact (hrest.tidy htidy hlater).2.trans hafter
    · exact ih htidy hlater hafter hd

/-- The routine of the last definition comes last. -/
theorem of_concat {d : Definition Judged}
    (h : EmitsAll constants (ds ++ [d]) t rs t') :
    ∃ rs' r t₁, rs = rs' ++ [r] ∧ EmitsAll constants ds t rs' t₁
      ∧ d.Emits constants t₁ r t' := by
  induction ds generalizing t rs with
  | nil =>
    cases h with
    | cons hd hds =>
      cases hds
      exact ⟨[], _, t, rfl, .nil, hd⟩
  | cons first ds ih =>
    cases h with
    | cons hfirst hrest =>
      obtain ⟨rs', r, t₁, rfl, hds, hd⟩ := ih hrest
      exact ⟨_ :: rs', r, t₁, rfl, .cons hfirst hds, hd⟩

end Definition.EmitsAll

end Primer
