import Mathlib.Data.List.Forall2
import Primer.Proofs.Emission.Literals
import Primer.Proofs.Machine.Control

/-!
# The texts that code loads

A program has the texts that any code may print and the literals that are
written in it, and both go into one list, each text once. Code refers to a
text by the name it has there. Which texts the code of a tree loads can be
read off the tree, in order (`Stmt.loads`), and each of the literals is among
them once (`Stmt.literals_loads`). So both the list and what code loads are
known from the program (`Program.compile_texts`).
-/

namespace Primer

open SymbolTable

/-! ## What code loads -/

/-- **A text that code loads.** -/
inductive Load where
  /-- One that is written in the program. -/
  | literal (text : String)
  /-- One that any code may print. -/
  | printed (text : String)
  deriving DecidableEq

namespace Load

/-- The text that is loaded. -/
def text : Load → String
  | literal text | printed text => text

/-- The text, if it is written in the program. -/
def literal? : Load → Option String
  | literal text => some text
  | printed _ => none

end Load

namespace Expr

mutual

/-- **The texts that the code of an expression loads**, with either kind of
destination. -/
def loads : Expr Judged → List Load
  | lit _ (.str s) => [.literal s]
  | lit _ (.int _) | lit _ (.bool _) | lit _ .unit | var _ _ => []
  | binary _ _ lhs rhs => lhs.loads ++ rhs.loads
  | not _ operand | input _ operand | convert _ .toInt operand =>
    operand.loads
  | convert _ .toStr operand =>
    if operand.ty = .bool then
      operand.loads ++ [.printed "True", .printed "False"]
    else operand.loads
  | call _ _ args => loadsAll args

/-- The texts that the code of expressions loads. -/
def loadsAll : List (Expr Judged) → List Load
  | [] => []
  | e :: es => e.loads ++ loadsAll es

end

/-- The texts that are loaded to write a value. -/
def printLoads (arg : Expr Judged) : List Load :=
  match arg.ty with
  | .int | .str => arg.loads
  | .bool => arg.loads ++ [.printed "True", .printed "False"]
  | .unit => arg.loads ++ [.printed "None"]

/-- The texts that are loaded to write values, each after a blank. -/
def moreLoads : List (Expr Judged) → List Load
  | [] => []
  | arg :: args => .printed " " :: (arg.printLoads ++ moreLoads args)

/-- The texts that are loaded to write values with a blank between two. -/
def lineLoads : List (Expr Judged) → List Load
  | [] => []
  | arg :: args => arg.printLoads ++ moreLoads args

end Expr

namespace Stmt

mutual

/-- **The texts that the code of a statement loads.** -/
def loads : Stmt Judged → List Load
  | introduce _ _ _ value | assign _ _ value | update _ _ _ value
  | ret _ value => value.loads
  | pass _ | retUnit _ => []
  | print _ args => Expr.lineLoads args ++ [.printed "\n"]
  | call _ _ args => Expr.loadsAll args
  | ifElse _ cond thenBlock elseBlock =>
    cond.loads ++ loadsAll thenBlock.stmts ++ loadsAll elseBlock.stmts
  | whileLoop _ cond body => cond.loads ++ loadsAll body.stmts

/-- The texts that the code of statements loads. -/
def loadsAll : List (Stmt Judged) → List Load
  | [] => []
  | stmt :: stmts => stmt.loads ++ loadsAll stmts

end

end Stmt

/-- The texts that the code of a definition loads. -/
def Definition.loads (d : Definition Judged) : List Load :=
  Stmt.loadsAll d.body.stmts

/-! ### The literals among them -/

/-- The literals among the texts that are loaded. -/
def Load.literals (loads : List Load) : List String :=
  loads.filterMap Load.literal?

theorem Load.literals_append (loads loads' : List Load) :
    literals (loads ++ loads') = literals loads ++ literals loads' :=
  List.filterMap_append

theorem Load.literals_printed (text : String) (loads : List Load) :
    literals (.printed text :: loads) = literals loads := rfl

namespace Expr

mutual

/-- **The literals that an expression loads are its own**, each once. -/
theorem literals_loads (e : Expr Judged) :
    Load.literals e.loads = e.literals := by
  match e with
  | .lit _ (.int _) | .lit _ (.str _) | .lit _ (.bool _) | .lit _ .unit
  | .var _ _ => rfl
  | .binary _ _ lhs rhs =>
    rw [loads, literals, Load.literals_append, literals_loads lhs,
      literals_loads rhs]
  | .not _ operand | .input _ operand | .convert _ .toInt operand =>
    exact literals_loads operand
  | .convert _ .toStr operand =>
    rw [loads, literals, ← literals_loads operand]
    split
    · exact (Load.literals_append _ _).trans (List.append_nil _)
    · rfl
  | .call _ _ args => exact literals_loadsAll args

/-- The literals that expressions load are their own. -/
theorem literals_loadsAll (es : List (Expr Judged)) :
    Load.literals (loadsAll es) = literalsAll es := by
  match es with
  | [] => rfl
  | e :: es =>
    rw [loadsAll, literalsAll, Load.literals_append, literals_loads e,
      literals_loadsAll es]

end

/-- The literals that are loaded to write a value are its own. -/
theorem literals_printLoads (arg : Expr Judged) :
    Load.literals arg.printLoads = arg.literals := by
  have happend (printed : List Load) (h : Load.literals printed = []) :
      Load.literals (arg.loads ++ printed) = arg.literals := by
    rw [Load.literals_append, literals_loads, h, List.append_nil]
  unfold printLoads
  split
  · exact literals_loads arg
  · exact literals_loads arg
  · exact happend _ rfl
  · exact happend _ rfl

/-- The literals that are loaded to write more values are theirs. -/
theorem literals_moreLoads (args : List (Expr Judged)) :
    Load.literals (moreLoads args) = literalsAll args := by
  induction args with
  | nil => rfl
  | cons arg args ih =>
    rw [moreLoads, Load.literals_printed, Load.literals_append,
      literals_printLoads, ih, literalsAll]

/-- The literals that are loaded to write values are theirs. -/
theorem literals_lineLoads (args : List (Expr Judged)) :
    Load.literals (lineLoads args) = literalsAll args := by
  cases args with
  | nil => rfl
  | cons arg args =>
    rw [lineLoads, Load.literals_append, literals_printLoads,
      literals_moreLoads, literalsAll]

end Expr

namespace Stmt

mutual

/-- **The literals that a statement loads are its own**, each once. -/
theorem literals_loads (stmt : Stmt Judged) :
    Load.literals stmt.loads = stmt.literals := by
  match stmt with
  | .introduce _ _ _ value | .assign _ _ value | .update _ _ _ value
  | .ret _ value => exact Expr.literals_loads value
  | .pass _ | .retUnit _ => rfl
  | .print _ args =>
    rw [loads, Load.literals_append, Expr.literals_lineLoads]
    exact List.append_nil _
  | .call _ _ args => exact Expr.literals_loadsAll args
  | .ifElse _ cond ⟨thenStmts, _⟩ ⟨elseStmts, _⟩ =>
    rw [loads, literals, Load.literals_append, Load.literals_append,
      Expr.literals_loads cond, literals_loadsAll thenStmts,
      literals_loadsAll elseStmts, List.append_assoc]
  | .whileLoop _ cond ⟨bodyStmts, _⟩ =>
    rw [loads, literals, Load.literals_append, Expr.literals_loads cond,
      literals_loadsAll bodyStmts]

/-- The literals that statements load are their own. -/
theorem literals_loadsAll (stmts : List (Stmt Judged)) :
    Load.literals (loadsAll stmts) = literalsAll stmts := by
  match stmts with
  | [] => rfl
  | stmt :: stmts =>
    rw [loadsAll, literalsAll, Load.literals_append, literals_loads stmt,
      literals_loadsAll stmts]

end

end Stmt

/-! ### Code and what it loads -/

/-- The name of the text that an instruction loads. -/
def Instr.loaded? : Instr → Option Label
  | loadString _ constant => some constant
  | _ => none

/-- **Code loads texts**, in order: the names that it loads stand for them in
the table. -/
def Code.Loads (symbols : SymbolTable) (code : Code) (loads : List Load) :
    Prop :=
  (code.filterMap Instr.loaded?).map symbols.constant?
    = loads.map fun load => some load.text

namespace Code.Loads

variable {symbols : SymbolTable} {code code' : Code}
  {loads loads' : List Load}

/-- **Code that is joined loads one text after the other.** -/
theorem append (h : code.Loads symbols loads)
    (h' : code'.Loads symbols loads') :
    (code ++ code').Loads symbols (loads ++ loads') := by
  unfold Loads at h h' ⊢
  rw [List.filterMap_append, List.map_append, List.map_append, h, h']

theorem of_none (h : code.filterMap Instr.loaded? = []) :
    code.Loads symbols [] := congrArg (List.map _) h

theorem andNone (h : code.Loads symbols loads)
    (h' : code'.filterMap Instr.loaded? = []) :
    (code ++ code').Loads symbols loads := by
  have happend := h.append (of_none h')
  rwa [List.append_nil] at happend

theorem behind (h : code.Loads symbols loads) {i : Instr}
    (hi : i.loaded? = none) : Loads symbols ([i] ++ code) loads :=
  (of_none (List.filterMap_cons_none hi)).append h

/-- Setting arguments aside loads nothing. -/
theorem andArguments (h : code.Loads symbols loads) (temps : List Slot)
    (hcode : code'.filterMap Instr.loaded? = []) :
    (code ++ setArguments 0 temps ++ code').Loads symbols loads := by
  have hnone (index : UInt64) :
      (setArguments index temps).filterMap Instr.loaded? = [] := by
    induction temps generalizing index with
    | nil => rfl
    | cons temp temps ih => exact ih (index + 1)
  exact (h.andNone (hnone 0)).andNone hcode

theorem literal {dst : Slot} {label : Label} {text : String}
    (h : symbols.constant? label = some text) :
    Loads symbols [.loadString dst label] [.literal text] :=
  congrArg (List.cons · []) h

theorem printed {dst : Slot} {label : Label} {text : String}
    (h : symbols.constant? label = some text) :
    Loads symbols [.loadString dst label] [.printed text] :=
  congrArg (List.cons · []) h

end Code.Loads

namespace Expr

variable {site : Site} {symbols : SymbolTable}

mutual

/-- **The code of an expression loads its texts**, with any destination. -/
theorem Emits.loads (hmean : site.constants.Mean symbols) {e : Expr Judged}
    {dest : Destination} {t t' : SymbolTable} {code : Code}
    (h : e.Emits site dest t code t') (hn : Naming symbols t t') :
    code.Loads symbols e.loads := by
  match h with
  | .int | .unit | .boolStore | .boolBranch | .varStore | .varBranch =>
    exact .of_none rfl
  | .str htext => exact .literal (hn.constant? htext)
  | .arith hleft hlhs hright hrhs | .compare hleft hlhs hright hrhs =>
    have hl := Asks.temporary hleft
    have hr := Asks.temporary hright
    obtain ⟨hn₁, hn₂⟩ :=
      hn.halves (hl.trans hlhs.asks) (hr.trans hrhs.asks)
    have hleft := hlhs.loads hmean (hn₁.behind hl hlhs.asks)
    have hright := hrhs.loads hmean (hn₂.behind hr hrhs.asks)
    exact (hleft.append hright).andNone rfl
  | .and hnext hlhs hrhs | .or hnext hlhs hrhs =>
    have hn := hn.behind (.label hnext) (hlhs.asks.trans hrhs.asks)
    obtain ⟨hn₁, hn₂⟩ := hn.halves hlhs.asks hrhs.asks
    exact ((hlhs.loads hmean hn₁).andNone rfl).append
      (hrhs.loads hmean hn₂)
  | .not hoperand => exact hoperand.loads hmean hn
  | .keep hkeeps hoperand =>
    have hloads := hoperand.loads hmean hn
    rename_i target operand dst
    cases target with
    | toInt => exact hloads
    | toStr =>
      have hty : operand.ty ≠ .bool := fun hty => by
        rw [hty] at hkeeps
        cases hkeeps
      rwa [Expr.loads, if_neg hty]
  | .input htemp hoperand | .strToInt _ htemp hoperand
  | .branchStored _ htemp hoperand =>
    have hn := hn.behind (.temporary htemp) hoperand.asks
    exact (hoperand.loads hmean hn).andNone rfl
  | .intToStr hty htemp hoperand =>
    have hn := hn.behind (.temporary htemp) hoperand.asks
    rw [Expr.loads, if_neg (hty ▸ Ty.noConfusion)]
    exact (hoperand.loads hmean hn).andNone rfl
  | .boolToStr hty hchoice =>
    rw [Expr.loads, if_pos hty]
    have hloads :=
      hchoice.loads hmean hn (.printed hmean.yes) (.printed hmean.no)
    rwa [List.append_assoc] at hloads
  | .call hargs => exact (hargs.loads hmean hn).andArguments _ rfl
  | .storeBranched _ hflag hchoice =>
    have hn := hn.behind (.temporary hflag) hchoice.asks
    have hloads := hchoice.loads hmean hn (.of_none rfl) (.of_none rfl)
    rw [List.append_nil, List.append_nil] at hloads
    exact hloads.andNone rfl

/-- A choice loads the texts of the condition and then those of both
instructions. -/
theorem EmitsChoice.loads (hmean : site.constants.Mean symbols)
    {e : Expr Judged} {onTrue onFalse : Instr} {t t' : SymbolTable}
    {code : Code} (h : e.EmitsChoice site onTrue onFalse t code t')
    (hn : Naming symbols t t') {first second : List Load}
    (htrue : Code.Loads symbols [onTrue] first)
    (hfalse : Code.Loads symbols [onFalse] second) :
    code.Loads symbols (e.loads ++ first ++ second) := by
  match h with
  | @EmitsChoice.mk _ _ _ _ yes no join _ _ _ _ _ cond hyes hno hjoin he =>
    have hn := hn.behind ((Asks.label hyes).trans
      ((Asks.label hno).trans (.label hjoin))) he.asks
    have hsplit : cond ++ [.label yes, onTrue, .jump join, .label no,
        onFalse, .label join]
      = cond ++ [.label yes] ++ [onTrue] ++ [.jump join, .label no]
        ++ [onFalse] ++ [.label join] := by simp
    rw [hsplit]
    exact (((((he.loads hmean hn).andNone rfl).append htrue).andNone
      rfl).append hfalse).andNone rfl

/-- The code of arguments loads their texts. -/
theorem EmitsArgs.loads (hmean : site.constants.Mean symbols)
    {args : List (Expr Judged)} {temps : List Slot} {t t' : SymbolTable}
    {code : Code} (h : EmitsArgs site args temps t code t')
    (hn : Naming symbols t t') : code.Loads symbols (loadsAll args) := by
  match h with
  | .nil => exact .of_none rfl
  | .cons htemp harg hargs =>
    have hn := hn.behind (.temporary htemp) (harg.asks.trans hargs.asks)
    obtain ⟨hn₁, hn₂⟩ := hn.halves harg.asks hargs.asks
    exact (harg.loads hmean hn₁).append (hargs.loads hmean hn₂)

end

end Expr

section Print

variable {site : Site} {symbols t t' : SymbolTable} {code : Code}

theorem Site.EmitsText.loads {label : Label} {text : String}
    (h : site.EmitsText label t code t')
    (hlabel : symbols.constant? label = some text) :
    code.Loads symbols [.printed text] := by
  cases h with
  | mk => exact congrArg (List.cons · []) hlabel

/-- Writing a value loads its texts. -/
theorem Expr.EmitsPrint.loads (hmean : site.constants.Mean symbols)
    {arg : Expr Judged} (h : arg.EmitsPrint site t code t')
    (hn : Naming symbols t t') : code.Loads symbols arg.printLoads := by
  cases h with
  | int hty htemp harg | str hty htemp harg =>
    have hn := hn.behind (.temporary htemp) harg.asks
    rw [printLoads, hty]
    exact (harg.loads hmean hn).andNone rfl
  | bool hty htemp hchoice =>
    have hn := hn.behind (.temporary htemp) hchoice.asks
    have hloads :=
      hchoice.loads hmean hn (.printed hmean.yes) (.printed hmean.no)
    rw [List.append_assoc] at hloads
    rw [printLoads, hty]
    exact hloads.andNone rfl
  | unit hty htemp harg hprint =>
    have hn := hn.behind (.temporary htemp) (harg.asks.andElse hprint.asks)
    have hn := (hn.halves harg.asks hprint.asks).1
    rw [printLoads, hty]
    exact (harg.loads hmean hn).append (hprint.loads hmean.unit)

/-- Writing more values loads their texts. -/
theorem Site.EmitsMore.loads (hmean : site.constants.Mean symbols)
    {args : List (Expr Judged)} (h : site.EmitsMore args t code t')
    (hn : Naming symbols t t') :
    code.Loads symbols (Expr.moreLoads args) := by
  induction h with
  | nil => exact .of_none rfl
  | cons hspace harg hargs ih =>
    have hn := hn.behind hspace.asks (harg.asks.trans hargs.asks)
    obtain ⟨hn₁, hn₂⟩ := hn.halves harg.asks hargs.asks
    rw [List.append_assoc]
    exact (hspace.loads hmean.space).append
      ((harg.loads hmean hn₁).append (ih hn₂))

/-- Writing values loads their texts. -/
theorem Site.EmitsLine.loads (hmean : site.constants.Mean symbols)
    {args : List (Expr Judged)} (h : site.EmitsLine args t code t')
    (hn : Naming symbols t t') :
    code.Loads symbols (Expr.lineLoads args) := by
  cases h with
  | nil => exact .of_none rfl
  | cons harg hargs =>
    obtain ⟨hn₁, hn₂⟩ := hn.halves harg.asks hargs.asks
    exact (harg.loads hmean hn₁).append (hargs.loads hmean hn₂)

end Print

namespace Stmt

variable {site : Site} {symbols : SymbolTable}

mutual

/-- **The code of a statement loads its texts.** -/
theorem Emits.loads (hmean : site.constants.Mean symbols)
    {stmt : Stmt Judged} {t t' : SymbolTable} {code : Code}
    (h : stmt.Emits site t code t') (hn : Naming symbols t t') :
    code.Loads symbols stmt.loads := by
  match h with
  | .introduce hvalue | .assign hvalue => exact hvalue.loads hmean hn
  | .update hcurrent htemp hoperand =>
    have hn := hn.behind
      ((Asks.temporary hcurrent).trans (.temporary htemp)) hoperand.asks
    exact ((hoperand.loads hmean hn).behind (by rfl)).andNone rfl
  | .pass | .retUnit _ => exact .of_none rfl
  | .print hargs hnewline =>
    have hn := (hn.halves hargs.asks hnewline.asks).1
    exact (hargs.loads hmean hn).append (hnewline.loads hmean.newline)
  | .ret htemp hvalue =>
    have hn := hn.behind (.temporary htemp) hvalue.asks
    exact (hvalue.loads hmean hn).andNone rfl
  | .call hargs => exact (hargs.loads hmean hn).andArguments _ rfl
  | .ifElse hthenLabel helseLabel hdone hcond hthen helse =>
    have hn := hn.behind ((Asks.label hthenLabel).trans
      ((Asks.label helseLabel).trans (.label hdone)))
      (hcond.asks.trans (hthen.asks.trans helse.asks))
    obtain ⟨hn₁, hn⟩ := hn.halves hcond.asks (hthen.asks.trans helse.asks)
    obtain ⟨hn₂, hn₃⟩ := hn.halves hthen.asks helse.asks
    exact (((((hcond.loads hmean hn₁).andNone rfl).append
      (hthen.loads hmean hn₂)).andNone rfl).append
        (helse.loads hmean hn₃)).andNone rfl
  | .whileLoop hagain hstart hdone hcond hbody =>
    have hn := hn.behind ((Asks.label hagain).trans
      ((Asks.label hstart).trans (.label hdone)))
      (hcond.asks.trans hbody.asks)
    obtain ⟨hn₁, hn₂⟩ := hn.halves hcond.asks hbody.asks
    exact ((((hcond.loads hmean hn₁).behind (by rfl)).andNone rfl).append
      (hbody.loads hmean hn₂)).andNone rfl

/-- The code of statements loads their texts. -/
theorem EmitsAll.loads (hmean : site.constants.Mean symbols)
    {stmts : List (Stmt Judged)} {t t' : SymbolTable} {code : Code}
    (h : EmitsAll site stmts t code t') (hn : Naming symbols t t') :
    code.Loads symbols (loadsAll stmts) := by
  match h with
  | .nil => exact .of_none rfl
  | .cons hstmt hstmts =>
    obtain ⟨hn₁, hn₂⟩ := hn.halves hstmt.asks hstmts.asks
    exact (hstmt.loads hmean hn₁).append (hstmts.loads hmean hn₂)

end

end Stmt

/-- **A routine loads the texts of its body.** -/
theorem Definition.Emits.loads {constants : Constants}
    {d : Definition Judged} {t t' symbols : SymbolTable} {r : Routine}
    (hmean : constants.Mean symbols) (h : d.Emits constants t r t')
    (hn : Naming symbols t t') : r.code.Loads symbols d.loads := by
  cases h with
  | mk _ hentry hexit hbody =>
    have hn := hn.behind ((Asks.declare hentry).trans (.label hexit))
      hbody.asks
    have hcode := (hbody.loads hmean hn).behind (i := .enter) rfl
    exact (hcode.behind (by rfl)).andNone rfl

/-- Routines load the texts of their bodies. -/
theorem Definition.EmitsAll.loads {constants : Constants}
    {ds : List (Definition Judged)} {t t' symbols : SymbolTable}
    {rs : List Routine} (hmean : constants.Mean symbols)
    (h : Definition.EmitsAll constants ds t rs t')
    (hn : Naming symbols t t') :
    List.Forall₂ (fun d r => r.code.Loads symbols d.loads) ds rs := by
  induction h with
  | nil => exact .nil
  | cons hd hds ih =>
    obtain ⟨hn₁, hn₂⟩ := hn.halves (Definition.Emits.asks hd) hds.asks
    exact .cons (Definition.Emits.loads hmean hd hn₁) (ih hn₂)

/-! ## The theorem -/

/-- A text that code loads is known. -/
theorem Code.Loads.exists_constant? {symbols : SymbolTable} {code : Code}
    {loads : List Load} (h : code.Loads symbols loads) {dst : Slot}
    {label : Label} (hmem : .loadString dst label ∈ code) :
    ∃ text, symbols.constant? label = some text := by
  have hlabel : label ∈ code.filterMap Instr.loaded? :=
    List.mem_filterMap.mpr ⟨_, hmem, rfl⟩
  have hconstant := List.mem_map_of_mem (f := symbols.constant?) hlabel
  rw [h] at hconstant
  obtain ⟨load, -, heq⟩ := List.mem_map.mp hconstant
  exact ⟨load.text, heq.symm⟩

/-- **The texts of a program are exact.** The list of texts of compiled code
has the five that any code may print and then the literals of the definitions
in order and of the main script, each text where it comes first. Every name of
a text in code stands for one of them. And the texts that the code of a body
loads, in order, are those that can be read off its checked tree; among them,
the literals are those of the body, each once and from left to right. -/
theorem Program.compile_texts {p : Program Span} {a : Assembly}
    (h : p.compile = .ok a) :
    a.symbols.constants.map Prod.snd
        = (["\n", " ", "True", "False", "None"] ++ p.literals).eraseDups
      ∧ (∀ r ∈ a.bodies, ∀ dst label, .loadString dst label ∈ r.code →
        ∃ text, a.symbols.constant? label = some text
          ∧ (label, text) ∈ a.symbols.constants)
      ∧ ∃ typed, p.check = .ok typed ∧ List.Forall₂ (fun d r =>
          (r.code.filterMap Instr.loaded?).map a.symbols.constant?
            = d.loads.map (fun load => some load.text)
          ∧ d.loads.filterMap Load.literal? = d.erase.literals)
        typed.program.bodies a.bodies := by
  obtain ⟨typed, hcheck, hemit⟩ := compile_eq_ok.mp h
  have hsound := check_sound hcheck
  have hemits := TypedProgram.emits_of_emit hemit
  have hstart := Interned.of_global_eq hsound.global
  obtain ⟨⟨log, hlog, htexts⟩, -⟩ := hemits.asks.interned hstart
  have hloads : List.Forall₂ (fun d r => r.code.Loads a.symbols d.loads)
      typed.program.bodies a.bodies := by
    cases hemits with
    | mk hconstants hbodies =>
      obtain ⟨⟨log', hlog', -⟩, -⟩ := hconstants.asks.interned hstart
      have hmean := hconstants.mean (tidy_of_global_eq hsound.global)
      have hkeeps := (hbodies.asks.interned hlog').2
      exact hbodies.loads (hmean.keeps hkeeps)
        ⟨⟨log', hlog'⟩, fun _ _ => id⟩
  refine ⟨?_, fun r hr dst label hmem => ?_, typed, hcheck,
    hloads.imp fun d r hd => ⟨hd, ?_⟩⟩
  · rw [hlog.texts, htexts, ← literals_erase, hsound.erase]
    rfl
  · obtain ⟨i, hi, rfl⟩ := List.mem_iff_getElem.mp hr
    have hd := hloads.get (hloads.length_eq ▸ hi) hi
    obtain ⟨text, htext⟩ := hd.exists_constant? hmem
    refine ⟨text, htext, ?_⟩
    rw [hlog.listed, List.mem_eraseDups]
    exact (hlog.meant label text).mp htext
  · exact (Stmt.literals_loadsAll d.body.stmts).trans
      (Stmt.literalsAll_erase d.body.stmts).symm

/-- The prompt of the doubling program is written in it twice and listed
once. -/
theorem Program.compile_texts_doubling : ∃ a, doubling.compile = .ok a
    ∧ doubling.literals = ["? ", "? "]
    ∧ a.symbols.constants.map Prod.snd
      = ["\n", " ", "True", "False", "None", "? "] := by
  obtain ⟨a, hcompile⟩ := exists_compile_doubling
  exact ⟨a, hcompile, rfl, (compile_texts hcompile).1.trans (by decide)⟩

end Primer
