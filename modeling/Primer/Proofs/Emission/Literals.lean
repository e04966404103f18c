import Primer.Proofs.Emission.Texts
import Primer.Proofs.Histories.Texts

/-!
# The literals of a program

The texts that are written in a program are its literals. They are reached in
many ways: as operands, arguments and prompts, in what is printed and in
conditions, which are emitted to be stored or to be branched on. None is
missed and none comes out of turn: emission is a history of the symbol table,
and the texts that it asks for are those that any code may print and then the
literals, from left to right (`TypedProgram.Emits.asks`).

That the names go on to stand for their texts is then a matter of histories,
whatever the definitions of the program are called.
-/

namespace Primer

namespace SymbolTable

variable {t t₁ t' symbols : SymbolTable} {texts texts' : List String}
  {log : Log}

/-! ## Asking for texts -/

/-- **On the way from one table to the other these texts are asked for**, in
this order, by any operations. -/
def Asks (t : SymbolTable) (texts : List String) (t' : SymbolTable) : Prop :=
  ∃ ops, t.after ops = t' ∧ ops.filterMap Operation.text? = texts

namespace Asks

theorem refl (t : SymbolTable) : t.Asks [] t := ⟨[], rfl, rfl⟩

/-- **Texts are asked for, and then some more.** -/
theorem trans (h : t.Asks texts t₁) (h' : t₁.Asks texts' t') :
    t.Asks (texts ++ texts') t' := by
  obtain ⟨ops, rfl, rfl⟩ := h
  obtain ⟨ops', rfl, rfl⟩ := h'
  exact ⟨ops ++ ops', after_append t ops ops', List.filterMap_append⟩

theorem andElse (h : t.Asks texts t₁) (h' : t₁.Asks [] t') :
    t.Asks texts t' := by
  have htrans := h.trans h'
  rwa [List.append_nil] at htrans

theorem temporary {id : ScopeId} {ty : Ty} {temp : Slot}
    (h : t.freshTemporary id ty = (temp, t')) : t.Asks [] t' :=
  ⟨[.temporary id ty], congrArg Prod.snd h, rfl⟩

theorem label {id : ScopeId} {hint : Option String} {label : Label}
    (h : t.freshLabel id hint = (label, t')) : t.Asks [] t' :=
  ⟨[.label id hint], congrArg Prod.snd h, rfl⟩

theorem intern {text : String} {label : Label}
    (h : t.intern text = (label, t')) : t.Asks [text] t' :=
  ⟨[.intern text], congrArg Prod.snd h, rfl⟩

theorem declare {name : Ident}
    (h : t.declare .global (.label name) = .ok t') : t.Asks [] t' := by
  refine ⟨[.declare .global name .label], ?_, rfl⟩
  have hname : t.declare .global (Declaration.label.symbol name) = .ok t' := h
  show (Operation.perform t (.declare .global name .label)).2 = t'
  rw [Operation.perform, hname]

end Asks

/-- What is known about texts goes on with the history. -/
theorem Interned.after (h : Interned log t) (ops : List Operation) :
    Interned (log ++ t.log ops) (t.after ops) := by
  induction ops generalizing log t with
  | nil => rwa [SymbolTable.log, List.append_nil]
  | cons op ops ih =>
    have hrest := ih (h.step (t.does_perform op))
    rwa [List.append_assoc] at hrest

/-- Nothing is known about texts where the global scope is empty. -/
theorem Interned.of_global_eq {owner : String}
    (h : t.global = .empty owner) : Interned [] t := by
  have hconstant : ∀ label, t.constant? label = none := fun label => by
    rw [SymbolTable.constant?, h]
    rfl
  have hlabel : ∀ text, t.labelOf? text = none := fun text => by
    rw [SymbolTable.labelOf?, h]
    rfl
  have hconstants : t.constants = [] := by
    rw [SymbolTable.constants, h]
    rfl
  exact {
    numbered := fun label text heq => by
      rw [hconstant] at heq
      cases heq
    named := fun label text => by
      rw [hlabel, hconstant]
      simp only [reduceCtorEq]
    meant := fun label text => by
      rw [hconstant]
      simp only [reduceCtorEq, Log.internings, List.filterMap_nil,
        List.not_mem_nil]
    listed := hconstants
    texts := congrArg (List.map Prod.snd) hconstants }

/-- **The texts that are asked for are added to those that are known**, and
what names stand for stays. -/
theorem Asks.interned (h : t.Asks texts t') (hlog : Interned log t) :
    (∃ log' : Log, Interned log' t' ∧ log'.texts = log.texts ++ texts)
      ∧ t.Keeps t' := by
  obtain ⟨ops, rfl, rfl⟩ := h
  have happend : (log ++ t.log ops).internings
      = log.internings ++ (t.log ops).internings := List.filterMap_append
  refine ⟨⟨_, hlog.after ops, ?_⟩, fun label text hl => ?_⟩
  · rw [Log.texts, happend, List.map_append, ← texts_log t]
    rfl
  · rw [(hlog.after ops).meant, happend]
    exact List.mem_append_left _ ((hlog.meant label text).mp hl)

/-- **A stretch of emission**, from a table that knows its texts to one whose
names of texts mean the same at the end. -/
structure Naming (symbols t t' : SymbolTable) : Prop where
  /-- The table knows its texts. -/
  interned : ∃ log, Interned log t
  /-- The names go on to stand for them. -/
  keeps : t'.Keeps symbols

namespace Naming

/-- **A stretch consists of two.** -/
theorem halves (h : Naming symbols t t') (hfirst : t.Asks texts t₁)
    (hrest : t₁.Asks texts' t') :
    Naming symbols t t₁ ∧ Naming symbols t₁ t' := by
  obtain ⟨log, hlog⟩ := h.interned
  obtain ⟨⟨log', hlog', -⟩, -⟩ := hfirst.interned hlog
  exact ⟨⟨⟨log, hlog⟩, (hrest.interned hlog').2.trans h.keeps⟩,
    ⟨log', hlog'⟩, h.keeps⟩

theorem behind (h : Naming symbols t t') (hfirst : t.Asks texts t₁)
    (hrest : t₁.Asks texts' t') : Naming symbols t₁ t' :=
  (h.halves hfirst hrest).2

/-- A text that was named is named so at the end. -/
theorem constant? (h : Naming symbols t t') {text : String} {label : Label}
    (htext : t.intern text = (label, t')) :
    symbols.constant? label = some text := by
  obtain ⟨log, hlog⟩ := h.interned
  have hstep := hlog.step (t.does_perform (.intern text))
  have hperform : Operation.perform t (.intern text) = (.name label, t') :=
    congrArg (Prod.map Answer.name id) htext
  rw [hperform] at hstep
  refine h.keeps label text ((hstep.meant label text).mpr ?_)
  rw [Log.internings_concat]
  exact List.mem_append_right _ (List.mem_singleton_self _)

end Naming

end SymbolTable

open SymbolTable

/-! ## The literals of a program -/

namespace Expr

variable {α : Type}

mutual

/-- **The texts that are written in an expression**, from left to right. -/
def literals : Expr α → List String
  | lit _ (.str s) => [s]
  | lit _ (.int _) | lit _ (.bool _) | lit _ .unit | var _ _ => []
  | binary _ _ lhs rhs => lhs.literals ++ rhs.literals
  | not _ operand | input _ operand | convert _ _ operand =>
    operand.literals
  | call _ _ args => literalsAll args

/-- The texts that are written in expressions. -/
def literalsAll : List (Expr α) → List String
  | [] => []
  | e :: es => e.literals ++ literalsAll es

end

end Expr

namespace Stmt

variable {α : Type}

mutual

/-- **The texts that are written in a statement**, in the order of the text.
-/
def literals : Stmt α → List String
  | introduce _ _ _ value | assign _ _ value | update _ _ _ value
  | ret _ value => value.literals
  | pass _ | retUnit _ => []
  | print _ args | call _ _ args => Expr.literalsAll args
  | ifElse _ cond thenBlock elseBlock =>
    cond.literals ++ (literalsAll thenBlock.stmts
      ++ literalsAll elseBlock.stmts)
  | whileLoop _ cond body => cond.literals ++ literalsAll body.stmts

/-- The texts that are written in statements. -/
def literalsAll : List (Stmt α) → List String
  | [] => []
  | stmt :: stmts => stmt.literals ++ literalsAll stmts

end

end Stmt

/-- The texts that are written in a definition. -/
def Definition.literals {α : Type} (d : Definition α) : List String :=
  Stmt.literalsAll d.body.stmts

/-- **The texts that are written in a program**: those of the definitions in
order, then those of the main script. -/
def Program.literals {α : Type} (p : Program α) : List String :=
  p.bodies.flatMap Definition.literals

/-- The texts that any code may print. -/
def printedTexts : List String := ["\n", " ", "True", "False", "None"]

/-! ### Types do not matter -/

namespace Expr

mutual

/-- An expression keeps its literals when types are forgotten. -/
theorem literals_erase (e : Expr Judged) : e.erase.literals = e.literals := by
  match e with
  | .lit _ (.int _) | .lit _ (.str _) | .lit _ (.bool _) | .lit _ .unit
  | .var _ _ => rfl
  | .binary _ _ lhs rhs =>
    rw [erase, literals, literals, literals_erase lhs, literals_erase rhs]
  | .not _ operand | .input _ operand | .convert _ _ operand =>
    exact literals_erase operand
  | .call _ _ args => exact literalsAll_erase args

/-- Expressions keep their literals. -/
theorem literalsAll_erase (es : List (Expr Judged)) :
    literalsAll (eraseAll es) = literalsAll es := by
  match es with
  | [] => rfl
  | e :: es =>
    rw [eraseAll, literalsAll, literalsAll, literals_erase e,
      literalsAll_erase es]

end

end Expr

namespace Stmt

mutual

/-- A statement keeps its literals when types are forgotten. -/
theorem literals_erase (stmt : Stmt Judged) :
    stmt.erase.literals = stmt.literals := by
  match stmt with
  | .introduce _ _ _ value | .assign _ _ value | .update _ _ _ value
  | .ret _ value => exact Expr.literals_erase value
  | .pass _ | .retUnit _ => rfl
  | .print _ args | .call _ _ args => exact Expr.literalsAll_erase args
  | .ifElse _ cond ⟨thenStmts, _⟩ ⟨elseStmts, _⟩ =>
    rw [erase, literals, literals, Expr.literals_erase cond,
      literalsAll_erase thenStmts, literalsAll_erase elseStmts]
  | .whileLoop _ cond ⟨bodyStmts, _⟩ =>
    rw [erase, literals, literals, Expr.literals_erase cond,
      literalsAll_erase bodyStmts]

/-- Statements keep their literals. -/
theorem literalsAll_erase (stmts : List (Stmt Judged)) :
    literalsAll (eraseAll stmts) = literalsAll stmts := by
  match stmts with
  | [] => rfl
  | stmt :: stmts =>
    rw [eraseAll, literalsAll, literalsAll, literals_erase stmt,
      literalsAll_erase stmts]

end

end Stmt

theorem Program.literals_erase (p : Program Judged) :
    p.erase.literals = p.literals := by
  rw [literals, literals, bodies_erase, List.flatMap_map]
  congr 1
  funext d
  exact Stmt.literalsAll_erase d.body.stmts

/-! ## What emission asks for -/

namespace Expr

variable {site : Site}

mutual

/-- **The code of an expression asks for its literals**, with any destination.
-/
theorem Emits.asks {e : Expr Judged} {dest : Destination}
    {t t' : SymbolTable} {code : Code} (h : e.Emits site dest t code t') :
    t.Asks e.literals t' := by
  match h with
  | .int | .unit | .boolStore | .boolBranch | .varStore | .varBranch =>
    exact .refl t
  | .str htext => exact .intern htext
  | .arith hleft hlhs hright hrhs | .compare hleft hlhs hright hrhs =>
    exact (Asks.temporary hleft).trans
      (hlhs.asks.trans ((Asks.temporary hright).trans hrhs.asks))
  | .and hnext hlhs hrhs | .or hnext hlhs hrhs =>
    exact (Asks.label hnext).trans (hlhs.asks.trans hrhs.asks)
  | .not hoperand | .keep _ hoperand => exact hoperand.asks
  | .input htemp hoperand | .strToInt _ htemp hoperand
  | .intToStr _ htemp hoperand | .branchStored _ htemp hoperand =>
    exact (Asks.temporary htemp).trans hoperand.asks
  | .boolToStr _ hchoice => exact hchoice.asks
  | .call hargs => exact hargs.asks
  | .storeBranched _ hflag hchoice =>
    exact (Asks.temporary hflag).trans hchoice.asks

theorem EmitsChoice.asks {e : Expr Judged} {onTrue onFalse : Instr}
    {t t' : SymbolTable} {code : Code}
    (h : e.EmitsChoice site onTrue onFalse t code t') :
    t.Asks e.literals t' := by
  match h with
  | .mk hyes hno hjoin he =>
    exact (Asks.label hyes).trans
      ((Asks.label hno).trans ((Asks.label hjoin).trans he.asks))

theorem EmitsArgs.asks {args : List (Expr Judged)} {temps : List Slot}
    {t t' : SymbolTable} {code : Code}
    (h : EmitsArgs site args temps t code t') :
    t.Asks (literalsAll args) t' := by
  match h with
  | .nil => exact .refl t
  | .cons htemp harg hargs =>
    exact (Asks.temporary htemp).trans (harg.asks.trans hargs.asks)

end

end Expr

theorem Site.EmitsText.asks {site : Site} {text : Label}
    {t t' : SymbolTable} {code : Code} (h : site.EmitsText text t code t') :
    t.Asks [] t' := by
  cases h with
  | mk htemp => exact .temporary htemp

/-- Writing a value asks for the literals of the expression. -/
theorem Expr.EmitsPrint.asks {site : Site} {arg : Expr Judged}
    {t t' : SymbolTable} {code : Code} (h : arg.EmitsPrint site t code t') :
    t.Asks arg.literals t' := by
  cases h with
  | int _ htemp harg | str _ htemp harg =>
    exact (Asks.temporary htemp).trans harg.asks
  | bool _ htemp hchoice => exact (Asks.temporary htemp).trans hchoice.asks
  | unit _ htemp harg hprint =>
    exact (Asks.temporary htemp).trans (harg.asks.andElse hprint.asks)

theorem Site.EmitsMore.asks {site : Site} {args : List (Expr Judged)}
    {t t' : SymbolTable} {code : Code} (h : site.EmitsMore args t code t') :
    t.Asks (Expr.literalsAll args) t' := by
  induction h with
  | nil => exact .refl _
  | cons hspace harg _ ih => exact hspace.asks.trans (harg.asks.trans ih)

theorem Site.EmitsLine.asks {site : Site} {args : List (Expr Judged)}
    {t t' : SymbolTable} {code : Code} (h : site.EmitsLine args t code t') :
    t.Asks (Expr.literalsAll args) t' := by
  cases h with
  | nil => exact .refl _
  | cons harg hargs => exact harg.asks.trans hargs.asks

namespace Stmt

variable {site : Site}

mutual

/-- **The code of a statement asks for its literals.** -/
theorem Emits.asks {stmt : Stmt Judged} {t t' : SymbolTable} {code : Code}
    (h : stmt.Emits site t code t') : t.Asks stmt.literals t' := by
  match h with
  | .introduce hvalue | .assign hvalue => exact hvalue.asks
  | .update hcurrent htemp hoperand =>
    exact (Asks.temporary hcurrent).trans
      ((Asks.temporary htemp).trans hoperand.asks)
  | .pass => exact .refl t
  | .print hargs hnewline => exact hargs.asks.andElse hnewline.asks
  | .ret htemp hvalue => exact (Asks.temporary htemp).trans hvalue.asks
  | .retUnit htemp => exact .temporary htemp
  | .call hargs => exact hargs.asks
  | .ifElse hthenLabel helseLabel hdone hcond hthen helse =>
    exact (Asks.label hthenLabel).trans ((Asks.label helseLabel).trans
      ((Asks.label hdone).trans
        (hcond.asks.trans (hthen.asks.trans helse.asks))))
  | .whileLoop hagain hstart hdone hcond hbody =>
    exact (Asks.label hagain).trans ((Asks.label hstart).trans
      ((Asks.label hdone).trans (hcond.asks.trans hbody.asks)))

theorem EmitsAll.asks {stmts : List (Stmt Judged)} {t t' : SymbolTable}
    {code : Code} (h : EmitsAll site stmts t code t') :
    t.Asks (literalsAll stmts) t' := by
  match h with
  | .nil => exact .refl t
  | .cons hstmt hstmts => exact hstmt.asks.trans hstmts.asks

end

end Stmt

theorem Definition.Emits.asks {constants : Constants} {d : Definition Judged}
    {t t' : SymbolTable} {r : Routine} (h : d.Emits constants t r t') :
    t.Asks d.literals t' := by
  cases h with
  | mk _ hentry hexit hbody =>
    exact (Asks.declare hentry).trans ((Asks.label hexit).trans hbody.asks)

/-- Routines ask for the literals of their bodies. -/
theorem Definition.EmitsAll.asks {constants : Constants}
    {ds : List (Definition Judged)} {t t' : SymbolTable} {rs : List Routine}
    (h : Definition.EmitsAll constants ds t rs t') :
    t.Asks (ds.flatMap Definition.literals) t' := by
  induction h with
  | nil => exact .refl _
  | cons hd _ ih =>
    rw [List.flatMap_cons]
    exact (Definition.Emits.asks hd).trans ih

theorem Constants.Emits.asks {c : Constants} {t t' : SymbolTable}
    (h : c.Emits t t') : t.Asks printedTexts t' := by
  cases h with
  | mk hnewline hspace hyes hno hunit =>
    exact (Asks.intern hnewline).trans ((Asks.intern hspace).trans
      ((Asks.intern hyes).trans ((Asks.intern hno).trans (.intern hunit))))

/-- **A program asks for the texts that any code may print and then for its
literals.** -/
theorem TypedProgram.Emits.asks {typed : TypedProgram} {a : Assembly}
    (h : typed.Emits a) :
    typed.symbols.Asks (printedTexts ++ typed.program.literals)
      a.symbols := by
  cases h with
  | mk hconstants hbodies => exact hconstants.asks.trans hbodies.asks

end Primer
