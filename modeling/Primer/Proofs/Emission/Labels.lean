import Primer.Proofs.Code
import Primer.Proofs.Emission.Rules
import Primer.Proofs.Tables

/-!
# The labels of emitted code

A label is taken from the table in one place and defined in the code in
another, and between the two it is handed down as the target of jumps. The
books balance all the same: the labels that a piece of code defines are the
labels that were taken while it was emitted, each of them once
(`Expr.Emits.takes`, `Stmt.Emits.takes`). Since the table gives out no number
twice, no label is defined twice in a piece (`Takes.nodup`).

The jumps of a piece go to its own labels or to the labels that it was given:
the two of a branch, and the exit of the body for a return. That is
`Code.Inner`, which also says that the piece neither starts nor ends a body.
-/

namespace Primer

open Text

/-! ## Labels taken -/

namespace SymbolTable

/-- Whether an id is that of the scope of a body. -/
def IsBody (t : SymbolTable) (id : ScopeId) : Prop :=
  t.Has id ∧ id ≠ .global

/-- **The names are the labels taken** from the scope `id` while the table
grew, as often as they occur. -/
structure Takes (id : ScopeId) (t t' : SymbolTable) (names : List Label) :
    Prop where
  /-- The table grew. -/
  grows : Grows id t t'
  /-- What was there and what was taken is there now. -/
  counts : t.IsBody id → ∀ l, (t'.scope id).positions.count l
    = names.count l + (t.scope id).positions.count l

variable {id : ScopeId} {t t₁ t₂ t' : SymbolTable}

theorem IsBody.grows (h : t.IsBody id) (hg : Grows id t t') :
    t'.IsBody id := ⟨hg.has h.1, h.2⟩

namespace Takes

theorem refl (id : ScopeId) (t : SymbolTable) : Takes id t t [] where
  grows := .refl t
  counts _ l := by simp

/-- First these labels were taken, then those. -/
theorem trans {names names' : List Label} (h : Takes id t t₁ names)
    (h' : Takes id t₁ t₂ names') : Takes id t t₂ (names ++ names') where
  grows := h.grows.trans h'.grows
  counts hbody l := by
    rw [h'.counts (hbody.grows h.grows) l, h.counts hbody l,
      List.count_append]
    omega

theorem congr {names names' : List Label} (h : Takes id t t' names)
    (hcount : ∀ l, names'.count l = names.count l) :
    Takes id t t' names' where
  grows := h.grows
  counts hbody l := by rw [hcount l, h.counts hbody l]

/-- A temporary is no label. -/
theorem temporary {ty : Ty} {temp : Slot}
    (h : t.freshTemporary id ty = (temp, t')) : Takes id t t' [] where
  grows := .temporary h
  counts hbody l := by
    rw [freshTemporary_eq] at h
    cases h
    rw [scope_grown_self hbody.1,
      Scope.positions_push_of_ne _ SymbolKind.noConfusion]
    simp

/-- A text is no label. -/
theorem intern {text : String} {label : Label}
    (h : t.intern text = (label, t')) : Takes id t t' [] where
  grows := .intern h
  counts hbody l := by
    cases hlabel : t.labelOf? text with
    | none =>
      rw [intern_of_none hlabel] at h
      cases h
      rw [scope_grown_of_ne hbody.2.symm]
      simp
    | some _ =>
      rw [intern_of_some hlabel] at h
      cases h
      simp

/-- A label is one. -/
theorem label {hint : String} {label : Label}
    (hhint : ∀ c, hint.toList.getLast? = some c → c.isDigit = false)
    (h : t.freshLabel id (some hint) = (label, t')) :
    Takes id t t' [label] where
  grows := .label (.point hhint) h
  counts hbody l := by
    rw [freshLabel_eq] at h
    cases h
    rw [scope_grown_self hbody.1, Scope.positions_push_label,
      ← List.singleton_append, List.count_append]

theorem labels {hint₁ hint₂ hint₃ : String} {l₁ l₂ l₃ : Label}
    {t₁ t₂ : SymbolTable}
    (hhints : ∀ hint ∈ [hint₁, hint₂, hint₃],
      ∀ c, hint.toList.getLast? = some c → c.isDigit = false)
    (h₁ : t.freshLabel id (some hint₁) = (l₁, t₁))
    (h₂ : t₁.freshLabel id (some hint₂) = (l₂, t₂))
    (h₃ : t₂.freshLabel id (some hint₃) = (l₃, t')) :
    Takes id t t' ([l₁] ++ [l₂] ++ [l₃]) :=
  ((label (hhints _ (by simp)) h₁).trans (label (hhints _ (by simp)) h₂)).trans
    (label (hhints _ (by simp)) h₃)

/-- **No label was taken twice**, and none that was there before. -/
theorem nodup {names : List Label} (h : Takes id t t' names)
    (hbody : t.IsBody id) :
    names.Nodup ∧ ∀ l ∈ names, Made t.counter t'.counter l
      ∧ Ident.BeginsWith l '.' := by
  obtain ⟨new, hnew, hnodup, hmade⟩ := h.grows.positions hbody.1 hbody.2
  -- the scope has gained these names, in whatever order they were taken
  have hperm : names.Perm new := List.perm_iff_count.mpr fun l => by
    have hcount := h.counts hbody l
    rw [hnew, List.count_append] at hcount
    omega
  exact ⟨hperm.nodup_iff.mpr hnodup, fun l hl => hmade l (hperm.mem_iff.mp hl)⟩

end Takes

end SymbolTable

open SymbolTable

@[simp] theorem labels_setArguments (index : UInt64) (temps : List Slot) :
    (setArguments index temps).labels = [] := by
  induction temps generalizing index with
  | nil => rfl
  | cons temp temps ih =>
    rw [setArguments, Code.labels_cons, ih]
    rfl

namespace Expr

variable {site : Site}

mutual

/-- **The code of an expression defines the labels that it took.** -/
theorem Emits.takes {e : Expr Judged} {dest : Destination}
    {t t' : SymbolTable} {code : Code}
    (h : e.Emits site dest t code t') :
    Takes site.scope t t' code.labels := by
  match h with
  | .int | .unit | .boolStore | .boolBranch | .varStore | .varBranch =>
    exact .refl _ _
  | .str htext => exact .intern htext
  | .arith hleft hlhs hright hrhs | .compare hleft hlhs hright hrhs =>
    refine ((Takes.temporary hleft).trans hlhs.takes).trans
      ((Takes.temporary hright).trans hrhs.takes) |>.congr (fun l => ?_)
    simp [Instr.label?]
  | .and hnext hlhs hrhs | .or hnext hlhs hrhs =>
    refine ((Takes.label (by simp) hnext).trans hlhs.takes).trans
      hrhs.takes |>.congr (fun l => ?_)
    simp only [Code.labels_append, Code.labels_cons, Code.labels_nil,
      Instr.label?, Option.toList_some, List.append_nil, List.count_append]
    omega
  | .not hoperand => exact hoperand.takes
  | .input htemp hprompt =>
    refine (Takes.temporary htemp).trans hprompt.takes
      |>.congr (fun l => ?_)
    simp [Instr.label?]
  | .strToInt _ htemp hoperand | .intToStr _ htemp hoperand =>
    refine (Takes.temporary htemp).trans hoperand.takes
      |>.congr (fun l => ?_)
    simp [Instr.label?]
  | .boolToStr _ hchoice => exact hchoice.takes rfl rfl
  | .keep _ hoperand => exact hoperand.takes
  | .call hargs =>
    refine hargs.takes.congr (fun l => ?_)
    simp [Instr.label?]
  | .branchStored _ htemp hvalue =>
    refine (Takes.temporary htemp).trans hvalue.takes |>.congr (fun l => ?_)
    simp [Instr.label?]
  | .storeBranched _ hflag hchoice =>
    refine (Takes.temporary hflag).trans (hchoice.takes rfl rfl)
      |>.congr (fun l => ?_)
    simp [Instr.label?]

/-- A choice between two instructions that are no labels defines the labels
that it took. -/
theorem EmitsChoice.takes {e : Expr Judged} {onTrue onFalse : Instr}
    {t t' : SymbolTable} {code : Code}
    (h : e.EmitsChoice site onTrue onFalse t code t')
    (htrue : onTrue.label? = none) (hfalse : onFalse.label? = none) :
    Takes site.scope t t' code.labels := by
  match h with
  | .mk hyes hno hjoin he =>
    refine (Takes.labels (by simp) hyes hno hjoin).trans he.takes
      |>.congr (fun l => ?_)
    simp only [Code.labels_append, Code.labels_cons, Code.labels_nil, htrue,
      hfalse]
    simp only [Instr.label?, Option.toList_some, Option.toList_none,
      List.append_nil, List.nil_append, List.count_append]
    omega

/-- The code of arguments defines the labels that it took. -/
theorem EmitsArgs.takes {args : List (Expr Judged)} {temps : List Slot}
    {t t' : SymbolTable} {code : Code}
    (h : EmitsArgs site args temps t code t') :
    Takes site.scope t t' code.labels := by
  match h with
  | .nil => exact .refl _ _
  | .cons htemp harg hargs =>
    refine ((Takes.temporary htemp).trans harg.takes).trans hargs.takes
      |>.congr (fun l => ?_)
    simp

end

end Expr

theorem Site.EmitsText.takes {site : Site} {text : Label}
    {t t' : SymbolTable} {code : Code} (h : site.EmitsText text t code t') :
    Takes site.scope t t' code.labels := by
  cases h with
  | mk htemp => exact .temporary htemp

/-- The code that writes a value defines the labels that it took. -/
theorem Expr.EmitsPrint.takes {site : Site} {arg : Expr Judged}
    {t t' : SymbolTable} {code : Code} (h : arg.EmitsPrint site t code t') :
    Takes site.scope t t' code.labels := by
  cases h with
  | int _ htemp harg | str _ htemp harg =>
    refine (Takes.temporary htemp).trans harg.takes |>.congr (fun l => ?_)
    simp [Instr.label?]
  | bool _ htemp hchoice =>
    refine (Takes.temporary htemp).trans (hchoice.takes rfl rfl)
      |>.congr (fun l => ?_)
    simp [Instr.label?]
  | unit _ hunused harg hprint =>
    refine ((Takes.temporary hunused).trans harg.takes).trans hprint.takes
      |>.congr (fun l => ?_)
    simp

/-- The code that writes more values defines the labels that it took. -/
theorem Site.EmitsMore.takes {site : Site} {args : List (Expr Judged)}
    {t t' : SymbolTable} {code : Code} (h : site.EmitsMore args t code t') :
    Takes site.scope t t' code.labels := by
  induction h with
  | nil => exact .refl _ _
  | cons hspace harg _ ih =>
    refine (hspace.takes.trans harg.takes).trans ih |>.congr (fun l => ?_)
    simp

/-- The code that writes values defines the labels that it took. -/
theorem Site.EmitsLine.takes {site : Site} {args : List (Expr Judged)}
    {t t' : SymbolTable} {code : Code} (h : site.EmitsLine args t code t') :
    Takes site.scope t t' code.labels := by
  cases h with
  | nil => exact .refl _ _
  | cons harg hargs =>
    refine harg.takes.trans hargs.takes |>.congr (fun l => ?_)
    simp

namespace Stmt

variable {site : Site}

mutual

/-- **The code of a statement defines the labels that it took.** -/
theorem Emits.takes {stmt : Stmt Judged} {t t' : SymbolTable} {code : Code}
    (h : stmt.Emits site t code t') :
    Takes site.scope t t' code.labels := by
  match h with
  | .introduce hinit => exact hinit.takes
  | .assign hvalue => exact hvalue.takes
  | .update hcurrent htemp hoperand =>
    refine ((Takes.temporary hcurrent).trans (Takes.temporary htemp)).trans
      hoperand.takes |>.congr (fun l => ?_)
    simp [Instr.label?]
  | .pass => exact .refl _ _
  | .print hargs hnewline =>
    refine hargs.takes.trans hnewline.takes |>.congr (fun l => ?_)
    simp
  | .ret htemp hvalue =>
    refine (Takes.temporary htemp).trans hvalue.takes |>.congr (fun l => ?_)
    simp [Instr.label?]
  | .retUnit htemp => exact .temporary htemp
  | .call hargs =>
    refine hargs.takes.congr (fun l => ?_)
    simp [Instr.label?]
  | .ifElse hthenLabel helseLabel hdone hcond hthen helse =>
    have hlabels := Takes.labels (by simp) hthenLabel helseLabel hdone
    refine (hlabels.trans hcond.takes).trans (hthen.takes.trans helse.takes)
      |>.congr (fun l => ?_)
    simp only [Code.labels_append, Code.labels_cons, Code.labels_nil,
      Instr.label?, Option.toList_some, Option.toList_none, List.append_nil,
      List.nil_append, List.count_append]
    omega
  | .whileLoop hagain hstart hdone hcond hbody =>
    have hlabels := Takes.labels (by simp) hagain hstart hdone
    refine (hlabels.trans hcond.takes).trans hbody.takes
      |>.congr (fun l => ?_)
    simp only [Code.labels_append, Code.labels_cons, Code.labels_nil,
      Instr.label?, Option.toList_some, Option.toList_none, List.append_nil,
      List.nil_append, List.count_append]
    omega

/-- **The code of statements defines the labels that it took.** -/
theorem EmitsAll.takes {stmts : List (Stmt Judged)} {t t' : SymbolTable}
    {code : Code} (h : EmitsAll site stmts t code t') :
    Takes site.scope t t' code.labels := by
  match h with
  | .nil => exact .refl _ _
  | .cons hstmt hstmts =>
    refine hstmt.takes.trans hstmts.takes |>.congr (fun l => ?_)
    simp

end

end Stmt

/-! ## Where jumps go -/

/-- **Code inside a body** that was given the labels `exits`: its jumps go to
its own labels or to those, and it neither starts nor ends a body. -/
structure Code.Inner (exits : List Label) (code : Code) : Prop where
  /-- Jumps go to labels that are there. -/
  targets : ∀ l ∈ code.targets, l ∈ code.labels ∨ l ∈ exits
  /-- It starts no body. -/
  enter : .enter ∉ code
  /-- It ends no body. -/
  leave : .leave ∉ code

/-- **An instruction inside a body** that was given the labels `exits`. -/
structure Instr.Inner (exits : List Label) (i : Instr) : Prop where
  /-- It goes to the labels that were given. -/
  targets : i.targets ⊆ exits
  /-- It starts no body. -/
  enter : i ≠ .enter
  /-- It ends no body. -/
  leave : i ≠ .leave

theorem Instr.Inner.of_targets_eq_nil {exits : List Label} {i : Instr}
    (h : i.targets = []) (henter : i ≠ .enter) (hleave : i ≠ .leave) :
    i.Inner exits := ⟨by simp [h], henter, hleave⟩

theorem Instr.Inner.of_label {exits : List Label} (name : Label) :
    (label name).Inner exits := of_targets_eq_nil rfl nofun nofun

theorem Instr.Inner.of_jump {exits : List Label} {target : Label}
    (h : target ∈ exits) : (jump target).Inner exits :=
  ⟨List.cons_subset.mpr ⟨h, List.nil_subset _⟩, nofun, nofun⟩

namespace Code.Inner

variable {exits : List Label} {code rest : Code}

theorem nil : Code.Inner exits [] := by constructor <;> simp

theorem mono {exits' : List Label} (h : code.Inner exits)
    (hsub : exits ⊆ exits') : code.Inner exits' where
  targets l hl := (h.targets l hl).imp_right (fun hl => hsub hl)
  enter := h.enter
  leave := h.leave

/-- Two pieces that were given the same labels are one. -/
theorem append (h : code.Inner exits) (h' : rest.Inner exits) :
    (code ++ rest).Inner exits where
  targets l hl := by
    rw [targets_append, List.mem_append] at hl
    rw [labels_append, List.mem_append]
    rcases hl with hl | hl
    · exact (h.targets l hl).imp_left Or.inl
    · exact (h'.targets l hl).imp_left Or.inr
  enter hmem := (List.mem_append.mp hmem).elim h.enter h'.enter
  leave hmem := (List.mem_append.mp hmem).elim h.leave h'.leave

/-- A label that is defined inside need not be given. -/
theorem close (names : List Label) (h : code.Inner (names ++ exits))
    (hnames : names ⊆ code.labels) : code.Inner exits where
  targets l hl := by
    rcases h.targets l hl with hl | hl
    · exact Or.inl hl
    · exact (List.mem_append.mp hl).imp_left (fun hl => hnames hl)
  enter := h.enter
  leave := h.leave

theorem single {i : Instr} (h : i.Inner exits) : Code.Inner exits [i] where
  targets l hl := Or.inr (h.targets (by simpa using hl))
  enter hmem := h.enter (List.mem_singleton.mp hmem).symm
  leave hmem := h.leave (List.mem_singleton.mp hmem).symm

theorem cons {i : Instr} (h : i.Inner exits) (h' : code.Inner exits) :
    Code.Inner exits (i :: code) := (single h).append h'

end Code.Inner

/-- The labels that a destination has. -/
def Destination.exits : Destination → List Label
  | .store _ => []
  | .branch ifTrue ifFalse => [ifTrue, ifFalse]

theorem inner_setArguments (exits : List Label) (index : UInt64)
    (temps : List Slot) : (setArguments index temps).Inner exits := by
  induction temps generalizing index with
  | nil => exact .nil
  | cons temp temps ih =>
    exact .cons (.of_targets_eq_nil rfl nofun nofun) (ih (index + 1))

namespace Expr

variable {site : Site}

open Code.Inner Instr.Inner

mutual

/-- **The code of an expression is inside a body** and leaves for the labels
of its destination. -/
theorem Emits.inner {e : Expr Judged} {dest : Destination}
    {t t' : SymbolTable} {code : Code} (h : e.Emits site dest t code t') :
    code.Inner dest.exits := by
  match h with
  | .int | .unit | .boolStore | .varStore | .str _ =>
    exact single (of_targets_eq_nil rfl nofun nofun)
  | .varBranch => exact single ⟨List.Subset.refl _, nofun, nofun⟩
  | @Emits.boolBranch _ _ b _ _ _ =>
    refine single ⟨?_, nofun, nofun⟩
    cases b <;> simp [Instr.targets, Destination.exits]
  | .arith _ hlhs _ hrhs =>
    exact (hlhs.inner.append hrhs.inner).append
      (single (of_targets_eq_nil rfl nofun nofun))
  | .compare _ hlhs _ hrhs =>
    exact ((hlhs.inner.append hrhs.inner).mono (List.nil_subset _)).append
      (single ⟨List.Subset.refl _, nofun, nofun⟩)
  | @Emits.and _ _ _ _ ifTrue ifFalse next _ _ _ _ _ _ _ hlhs hrhs
  | @Emits.or _ _ _ _ ifTrue ifFalse next _ _ _ _ _ _ _ hlhs hrhs =>
    refine close [next] (((hlhs.inner.mono ?_).append
      (single (of_label next))).append (hrhs.inner.mono ?_)) ?_
    all_goals simp [Instr.label?, Destination.exits]
  | .not hoperand =>
    exact hoperand.inner.mono (by simp [Destination.exits])
  | .input _ hprompt =>
    exact hprompt.inner.append (cons (of_targets_eq_nil rfl nofun nofun)
      (single (of_targets_eq_nil rfl nofun nofun)))
  | .strToInt _ _ hoperand | .intToStr _ _ hoperand =>
    exact hoperand.inner.append
      (single (of_targets_eq_nil rfl nofun nofun))
  | .boolToStr _ hchoice =>
    exact hchoice.inner (of_targets_eq_nil rfl nofun nofun)
      (of_targets_eq_nil rfl nofun nofun)
  | .keep _ hoperand => exact hoperand.inner
  | .call hargs =>
    exact (hargs.inner.append (inner_setArguments _ _ _)).append
      (cons (of_targets_eq_nil rfl nofun nofun)
        (single (of_targets_eq_nil rfl nofun nofun)))
  | .branchStored _ _ hvalue =>
    refine (hvalue.inner.mono (List.nil_subset _)).append
      (single ⟨?_, nofun, nofun⟩)
    simp [Instr.targets, Destination.exits]
  | .storeBranched _ _ hchoice =>
    exact (hchoice.inner (of_targets_eq_nil rfl nofun nofun)
      (of_targets_eq_nil rfl nofun nofun)).append
        (single (of_targets_eq_nil rfl nofun nofun))

/-- A choice is inside a body if its two instructions are, and it leaves for
no label. -/
theorem EmitsChoice.inner {e : Expr Judged} {onTrue onFalse : Instr}
    {t t' : SymbolTable} {code : Code}
    (h : e.EmitsChoice site onTrue onFalse t code t')
    (htrue : ∀ {exits}, onTrue.Inner exits)
    (hfalse : ∀ {exits}, onFalse.Inner exits) : code.Inner [] := by
  match h with
  | @EmitsChoice.mk _ _ _ _ yes no join _ _ _ _ _ _ _ _ _ he =>
    refine close [yes, no, join] ((he.inner.mono ?_).append
      (cons (of_label yes) (cons htrue (cons (of_jump ?_)
        (cons (of_label no) (cons hfalse (single (of_label join)))))))) ?_
    all_goals simp [Instr.label?, Destination.exits]

theorem EmitsArgs.inner {args : List (Expr Judged)} {temps : List Slot}
    {t t' : SymbolTable} {code : Code}
    (h : EmitsArgs site args temps t code t') : code.Inner [] := by
  match h with
  | .nil => exact .nil
  | .cons _ harg hargs => exact harg.inner.append hargs.inner

end

end Expr

theorem Site.EmitsText.inner {site : Site} {text : Label}
    {t t' : SymbolTable} {code : Code} (h : site.EmitsText text t code t')
    (exits : List Label) : code.Inner exits := by
  cases h with
  | mk =>
    exact .cons (.of_targets_eq_nil rfl nofun nofun)
      (.single (.of_targets_eq_nil rfl nofun nofun))

/-- The code that writes a value is inside a body. -/
theorem Expr.EmitsPrint.inner {site : Site} {arg : Expr Judged}
    {t t' : SymbolTable} {code : Code} (h : arg.EmitsPrint site t code t')
    (exits : List Label) : code.Inner exits := by
  cases h with
  | int _ _ harg | str _ _ harg =>
    exact (harg.inner.mono (List.nil_subset _)).append
      (.single (.of_targets_eq_nil rfl nofun nofun))
  | bool _ _ hchoice =>
    exact ((hchoice.inner (.of_targets_eq_nil rfl nofun nofun)
      (.of_targets_eq_nil rfl nofun nofun)).mono (List.nil_subset _)).append
        (.single (.of_targets_eq_nil rfl nofun nofun))
  | unit _ _ harg hprint =>
    exact (harg.inner.mono (List.nil_subset _)).append (hprint.inner exits)

theorem Site.EmitsMore.inner {site : Site} {args : List (Expr Judged)}
    {t t' : SymbolTable} {code : Code} (h : site.EmitsMore args t code t')
    (exits : List Label) : code.Inner exits := by
  induction h with
  | nil => exact .nil
  | cons hspace harg _ ih =>
    exact ((hspace.inner exits).append (harg.inner exits)).append ih

theorem Site.EmitsLine.inner {site : Site} {args : List (Expr Judged)}
    {t t' : SymbolTable} {code : Code} (h : site.EmitsLine args t code t')
    (exits : List Label) : code.Inner exits := by
  cases h with
  | nil => exact .nil
  | cons harg hargs => exact (harg.inner exits).append (hargs.inner exits)

namespace Stmt

variable {site : Site}

open Code.Inner Instr.Inner

mutual

/-- **The code of a statement is inside a body** and leaves for its exit. -/
theorem Emits.inner {stmt : Stmt Judged} {t t' : SymbolTable} {code : Code}
    (h : stmt.Emits site t code t') : code.Inner [site.exit] := by
  match h with
  | .introduce hinit => exact hinit.inner.mono (List.nil_subset _)
  | .assign hvalue => exact hvalue.inner.mono (List.nil_subset _)
  | .update _ _ hoperand =>
    refine ((single ?_).append
      (hoperand.inner.mono (List.nil_subset _))).append (single ?_)
    all_goals exact of_targets_eq_nil rfl nofun nofun
  | .pass => exact single (of_targets_eq_nil rfl nofun nofun)
  | .print hargs hnewline => exact (hargs.inner _).append (hnewline.inner _)
  | .ret _ hvalue =>
    exact (hvalue.inner.mono (List.nil_subset _)).append
      (cons (of_targets_eq_nil rfl nofun nofun)
        (single (of_jump (List.mem_singleton_self _))))
  | .retUnit _ =>
    exact cons (of_targets_eq_nil rfl nofun nofun)
      (cons (of_targets_eq_nil rfl nofun nofun)
        (single (of_jump (List.mem_singleton_self _))))
  | .call hargs =>
    exact ((hargs.inner.mono (List.nil_subset _)).append
      (inner_setArguments _ _ _)).append
        (single (of_targets_eq_nil rfl nofun nofun))
  | @Emits.ifElse _ _ _ _ _ thenLabel elseLabel done _ _ _ _ _ _ _ _ _ _ _ _
      _ hcond hthen helse =>
    refine close [thenLabel, elseLabel, done] ((((((hcond.inner.mono ?_).append
      (single (of_label thenLabel))).append (hthen.inner.mono ?_)).append
        (cons (of_jump ?_) (single (of_label elseLabel)))).append
          (helse.inner.mono ?_)).append (single (of_label done))) ?_
    all_goals simp [Instr.label?, Destination.exits]
  | @Emits.whileLoop _ _ _ _ again start done _ _ _ _ _ _ _ _ _ _ _
      hcond hbody =>
    refine close [again, start, done] (((((single (of_label again)).append
      (hcond.inner.mono ?_)).append (single (of_label start))).append
        (hbody.inner.mono ?_)).append
          (cons (of_jump ?_) (single (of_label done)))) ?_
    all_goals simp [Instr.label?, Destination.exits]

/-- **The code of statements is inside a body** and leaves for its exit. -/
theorem EmitsAll.inner {stmts : List (Stmt Judged)} {t t' : SymbolTable}
    {code : Code} (h : EmitsAll site stmts t code t') :
    code.Inner [site.exit] := by
  match h with
  | .nil => exact .nil
  | .cons hstmt hstmts => exact hstmt.inner.append hstmts.inner

end

end Stmt

end Primer
