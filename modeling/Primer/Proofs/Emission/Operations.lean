import Mathlib.Data.List.Forall2
import Primer.Proofs.Emission.Places
import Primer.Proofs.Emission.Variables

/-!
# Operations in emitted code

Most instructions of a routine move values and control about. The others do
the work of the program: they call, take an integer from the input, compute,
compare. That the emitter drops none of them, emits none twice and does not
change their order is a statement about two lists. One is read off the tree,
operands before what is done with them and from left to right
(`Definition.actions`); the other is read off the code in its order. They are
equal, whatever the types noted on the tree are and whatever is in the symbol
table (`TypedProgram.emit_performs`).

Arguments are part of it. They are set aside in one row directly before the
call that takes them, numbered from 0, and nowhere else, so the rows of nested
calls do not get into each other. `Code.Performs` says this of code along with
the list; it is closed under joining code, and so one lemma for each construct
is enough.
-/

namespace Primer

/-- **What code does** besides moving values and control. -/
inductive Action where
  /-- It calls a routine. -/
  | call (callee : Ident)
  /-- It takes an integer from the input. -/
  | input
  /-- It computes. -/
  | arith (op : ArithOp)
  /-- It compares. -/
  | compare (op : Comparison)
  deriving DecidableEq

/-- The action of an instruction. -/
def Instr.action? : Instr → Option Action
  | call callee => some (.call callee)
  | readInt _ => some .input
  | arith op _ _ _ => some (.arith op)
  | branchCompare op _ _ _ _ => some (.compare op)
  | _ => none

/-- Whether an instruction sets an argument aside. -/
def Instr.isArgument : Instr → Bool
  | setArgument _ _ => true
  | _ => false

/-- Whether an instruction does nothing that counts here. -/
def Instr.isSilent (i : Instr) : Bool := i.action?.isNone && !i.isArgument

/-- **The row of arguments**: numbered from 0, in order. -/
def passing (temps : List Slot) : Code :=
  temps.mapIdx fun index temp => .setArgument (.ofNat index) temp

/-- **Code performs actions**, each with a number of arguments, in order. The
arguments are set aside directly before the action that takes them, and only
there. They are taken from places that the code before has stored to, in the
same order. -/
inductive Code.Performs : Code → List (Action × Nat) → Prop
  /-- No code. -/
  | nil : Performs [] []
  /-- A silent instruction. -/
  | silent {code : Code} {actions : List (Action × Nat)} {i : Instr}
      (h : Performs code actions) (hi : i.isSilent = true) :
    Performs (code ++ [i]) actions
  /-- A row of arguments and the action that takes them. -/
  | action {code : Code} {actions : List (Action × Nat)} {i : Instr}
      {action : Action} {temps : List Slot} (h : Performs code actions)
      (hi : i.action? = some action)
      (htemps : temps.Sublist (code.filterMap Instr.dst?)) :
    Performs (code ++ passing temps ++ [i])
      (actions ++ [(action, temps.length)])

/-! ## The actions of a tree -/

namespace Expr

variable {α : Type}

mutual

/-- **The actions of an expression**, with the numbers of their arguments:
those of the operands from left to right, then its own. -/
def actions : Expr α → List (Action × Nat)
  | lit _ _ | var _ _ => []
  | binary _ (.arith op) lhs rhs =>
    lhs.actions ++ rhs.actions ++ [(.arith op, 0)]
  | binary _ (.compare op) lhs rhs =>
    lhs.actions ++ rhs.actions ++ [(.compare op, 0)]
  | binary _ (.logic _) lhs rhs => lhs.actions ++ rhs.actions
  | not _ operand => operand.actions
  | input _ prompt => prompt.actions ++ [(.input, 0)]
  | convert _ _ operand => operand.actions
  | call _ callee args => actionsAll args ++ [(.call callee, args.length)]

/-- The actions of expressions, from left to right. -/
def actionsAll : List (Expr α) → List (Action × Nat)
  | [] => []
  | e :: es => e.actions ++ actionsAll es

end

end Expr

namespace Stmt

variable {α : Type}

mutual

/-- **The actions of a statement**, in the order of the text. -/
def actions : Stmt α → List (Action × Nat)
  | introduce _ _ _ value | assign _ _ value | ret _ value => value.actions
  | update _ op _ operand => operand.actions ++ [(.arith op.op, 0)]
  | pass _ | retUnit _ => []
  | print _ args => Expr.actionsAll args
  | call _ callee args =>
    Expr.actionsAll args ++ [(.call callee, args.length)]
  | ifElse _ cond thenBlock elseBlock =>
    cond.actions ++ actionsAll thenBlock.stmts
      ++ actionsAll elseBlock.stmts
  | whileLoop _ cond body => cond.actions ++ actionsAll body.stmts

/-- The actions of statements, one after the other. -/
def actionsAll : List (Stmt α) → List (Action × Nat)
  | [] => []
  | stmt :: stmts => stmt.actions ++ actionsAll stmts

end

end Stmt

/-- The actions of a definition. -/
def Definition.actions {α : Type} (d : Definition α) : List (Action × Nat) :=
  Stmt.actionsAll d.body.stmts

/-! ## Joining code -/

/-- The emitter sets arguments aside in one row. -/
theorem setArguments_eq_mapIdx (index : UInt64) (temps : List Slot) :
    setArguments index temps = temps.mapIdx fun i temp =>
      .setArgument (index + .ofNat i) temp := by
  induction temps generalizing index with
  | nil => rfl
  | cons temp temps ih =>
    rw [setArguments, ih, List.mapIdx_cons]
    congr 1
    · exact congrArg (Instr.setArgument · temp) (UInt64.add_zero index).symm
    · congr 1
      funext i temp
      rw [Nat.add_comm i 1, UInt64.ofNat_add, UInt64.add_assoc]
      rfl

theorem setArguments_zero (temps : List Slot) :
    setArguments 0 temps = passing temps := by
  rw [setArguments_eq_mapIdx, passing]
  congr 1
  funext i temp
  rw [UInt64.zero_add]

namespace Code.Performs

variable {code code' : Code} {actions actions' : List (Action × Nat)}

/-- **Code that is joined performs the actions one after the other.** -/
theorem append (h : code.Performs actions) (h' : code'.Performs actions') :
    (code ++ code').Performs (actions ++ actions') := by
  induction h' with
  | nil =>
    rw [List.append_nil, List.append_nil]
    exact h
  | silent _ hi ih =>
    rw [← List.append_assoc]
    exact ih.silent hi
  | action _ hi htemps ih =>
    rw [← List.append_assoc, ← List.append_assoc, ← List.append_assoc]
    refine ih.action hi (htemps.trans ?_)
    rw [List.filterMap_append]
    exact List.sublist_append_right _ _

/-- Silent code performs nothing. -/
theorem of_silent (h : code.all Instr.isSilent = true) :
    code.Performs [] := by
  induction code with
  | nil => exact .nil
  | cons i code ih =>
    obtain ⟨hi, hcode⟩ := Bool.and_eq_true_iff.mp h
    exact (nil.silent hi).append (ih hcode)

theorem andSilent (h : code.Performs actions)
    (h' : code'.all Instr.isSilent = true) :
    (code ++ code').Performs actions := by
  have happend := h.append (of_silent h')
  rwa [List.append_nil] at happend

theorem behindSilent (h : code.Performs actions) {i : Instr}
    (hi : i.isSilent = true) : Performs ([i] ++ code) actions :=
  (nil.silent hi).append h

theorem andAction (h : code.Performs actions) {i : Instr} {action : Action}
    (hi : i.action? = some action) :
    (code ++ [i]).Performs (actions ++ [(action, 0)]) := by
  have hcode := h.action hi (List.nil_sublist _)
  rwa [passing, List.mapIdx_nil, List.append_nil] at hcode

theorem andCall (h : code.Performs actions) {temps : List Slot}
    (htemps : temps.Sublist (code.filterMap Instr.dst?)) (callee : Ident) :
    (code ++ setArguments 0 temps ++ [Instr.call callee]).Performs
      (actions ++ [(Action.call callee, temps.length)]) := by
  rw [setArguments_zero]
  exact h.action rfl htemps

/-- **The actions in the code**, in its order, are those that it performs. -/
theorem filterMap_action? (h : code.Performs actions) :
    code.filterMap Instr.action? = actions.map Prod.fst := by
  induction h with
  | nil => rfl
  | silent _ hi ih =>
    have hnone := Option.isNone_iff_eq_none.mp (Bool.and_eq_true_iff.mp hi).1
    rw [List.filterMap_append, ih, List.filterMap_cons_none hnone]
    exact List.append_nil _
  | @action _ _ _ _ temps _ hi _ ih =>
    have hrow : (passing temps).filterMap Instr.action? = [] := by
      refine List.filterMap_eq_nil_iff.mpr fun j hj => ?_
      obtain ⟨index, hindex, rfl⟩ := List.mem_mapIdx.mp hj
      rfl
    rw [List.filterMap_append, List.filterMap_append, ih, hrow,
      List.append_nil, List.filterMap_cons_some hi, List.map_append]
    rfl

end Code.Performs

/-! ## The actions of emitted code -/

namespace Expr

variable {site : Site}

mutual

/-- **Storing code stores to its destination.** -/
theorem Emits.dst_mem {e : Expr Judged} {dest : Destination} {dst : Slot}
    {t t' : SymbolTable} {code : Code} (h : e.Emits site dest t code t')
    (hdest : dest = .store dst) : dst ∈ code.filterMap Instr.dst? := by
  match h with
  | .int | .unit | .boolStore | .varStore | .str _ | .arith _ _ _ _
  | .input _ _ | .strToInt _ _ _ | .intToStr _ _ _ | .call _
  | .storeBranched _ _ _ =>
    cases hdest
    simp [Instr.dst?]
  | .boolToStr _ hchoice =>
    cases hdest
    exact hchoice.dst_mem rfl
  | .keep _ hoperand => exact hoperand.dst_mem hdest
  | .boolBranch | .varBranch | .compare _ _ _ _ | .and _ _ _ | .or _ _ _
  | .not _ | .branchStored _ _ _ => cases hdest

theorem EmitsChoice.dst_mem {e : Expr Judged} {onTrue onFalse : Instr}
    {dst : Slot} {t t' : SymbolTable} {code : Code}
    (h : e.EmitsChoice site onTrue onFalse t code t')
    (hdst : onTrue.dst? = some dst) : dst ∈ code.filterMap Instr.dst? := by
  match h with
  | .mk _ _ _ _ =>
    refine List.mem_filterMap.mpr ⟨onTrue, ?_, hdst⟩
    simp

end

mutual

/-- **The code of an expression performs its actions**, with any destination.
-/
theorem Emits.acts {e : Expr Judged} {dest : Destination}
    {t t' : SymbolTable} {code : Code} (h : e.Emits site dest t code t') :
    code.Performs e.actions := by
  match h with
  | .int | .unit | .boolStore | .boolBranch | .varStore | .varBranch
  | .str _ => exact .of_silent rfl
  | .arith _ hlhs _ hrhs | .compare _ hlhs _ hrhs =>
    exact (hlhs.acts.append hrhs.acts).andAction rfl
  | .and _ hlhs hrhs | .or _ hlhs hrhs =>
    exact (hlhs.acts.andSilent rfl).append hrhs.acts
  | .not hoperand | .keep _ hoperand => exact hoperand.acts
  | .input _ hprompt =>
    rw [List.append_cons]
    exact (hprompt.acts.andSilent rfl).andAction rfl
  | .strToInt _ _ hoperand | .intToStr _ _ hoperand =>
    exact hoperand.acts.andSilent rfl
  | .boolToStr _ hchoice => exact hchoice.acts rfl rfl
  | .call hargs =>
    obtain ⟨hacts, hlength, hstored⟩ := hargs.acts
    rw [List.append_cons, actions, ← hlength]
    exact (hacts.andCall hstored _).andSilent rfl
  | .branchStored _ _ hvalue => exact hvalue.acts.andSilent rfl
  | .storeBranched _ _ hchoice =>
    exact (hchoice.acts rfl rfl).andSilent rfl

/-- A choice between two silent instructions performs the actions of the
condition. -/
theorem EmitsChoice.acts {e : Expr Judged} {onTrue onFalse : Instr}
    {t t' : SymbolTable} {code : Code}
    (h : e.EmitsChoice site onTrue onFalse t code t')
    (htrue : onTrue.isSilent = true) (hfalse : onFalse.isSilent = true) :
    code.Performs e.actions := by
  match h with
  | .mk _ _ _ he =>
    refine he.acts.andSilent ?_
    simp only [List.all_cons, htrue, hfalse]
    rfl

/-- The code of arguments performs their actions, and stores one argument
after the other. -/
theorem EmitsArgs.acts {args : List (Expr Judged)} {temps : List Slot}
    {t t' : SymbolTable} {code : Code}
    (h : EmitsArgs site args temps t code t') :
    code.Performs (actionsAll args) ∧ temps.length = args.length
      ∧ temps.Sublist (code.filterMap Instr.dst?) := by
  match h with
  | .nil => exact ⟨.nil, rfl, List.nil_sublist _⟩
  | .cons _ harg hargs =>
    obtain ⟨hacts, hlength, hstored⟩ := hargs.acts
    refine ⟨harg.acts.append hacts, congrArg Nat.succ hlength, ?_⟩
    rw [List.filterMap_append]
    exact (List.singleton_sublist.mpr (harg.dst_mem rfl)).append hstored

end

end Expr

theorem Site.EmitsText.acts {site : Site} {text : Label}
    {t t' : SymbolTable} {code : Code} (h : site.EmitsText text t code t') :
    code.Performs [] := by
  cases h with
  | mk => exact .of_silent rfl

/-- Writing a value performs the actions of the expression. -/
theorem Expr.EmitsPrint.acts {site : Site} {arg : Expr Judged}
    {t t' : SymbolTable} {code : Code} (h : arg.EmitsPrint site t code t') :
    code.Performs arg.actions := by
  cases h with
  | int _ _ harg | str _ _ harg => exact harg.acts.andSilent rfl
  | bool _ _ hchoice => exact (hchoice.acts rfl rfl).andSilent rfl
  | unit _ _ harg hprint =>
    have happend := harg.acts.append hprint.acts
    rwa [List.append_nil] at happend

theorem Site.EmitsMore.acts {site : Site} {args : List (Expr Judged)}
    {t t' : SymbolTable} {code : Code} (h : site.EmitsMore args t code t') :
    code.Performs (Expr.actionsAll args) := by
  induction h with
  | nil => exact .nil
  | cons hspace harg _ ih =>
    exact (hspace.acts.append harg.acts).append ih

theorem Site.EmitsLine.acts {site : Site} {args : List (Expr Judged)}
    {t t' : SymbolTable} {code : Code} (h : site.EmitsLine args t code t') :
    code.Performs (Expr.actionsAll args) := by
  cases h with
  | nil => exact .nil
  | cons harg hargs => exact harg.acts.append hargs.acts

namespace Stmt

variable {site : Site}

mutual

/-- **The code of a statement performs its actions.** -/
theorem Emits.acts {stmt : Stmt Judged} {t t' : SymbolTable}
    {code : Code} (h : stmt.Emits site t code t') :
    code.Performs stmt.actions := by
  match h with
  | .introduce hvalue | .assign hvalue => exact hvalue.acts
  | .update _ _ hoperand =>
    exact (hoperand.acts.behindSilent (by rfl)).andAction rfl
  | .pass | .retUnit _ => exact .of_silent rfl
  | .print hargs hnewline =>
    have happend := hargs.acts.append hnewline.acts
    rwa [List.append_nil] at happend
  | .ret _ hvalue => exact hvalue.acts.andSilent rfl
  | .call hargs =>
    obtain ⟨hacts, hlength, hstored⟩ := hargs.acts
    rw [actions, ← hlength]
    exact hacts.andCall hstored _
  | .ifElse _ _ _ hcond hthen helse =>
    exact ((((hcond.acts.andSilent rfl).append hthen.acts).andSilent
      rfl).append helse.acts).andSilent rfl
  | .whileLoop _ _ _ hcond hbody =>
    exact (((hcond.acts.behindSilent (by rfl)).andSilent rfl).append
      hbody.acts).andSilent rfl

theorem EmitsAll.acts {stmts : List (Stmt Judged)} {t t' : SymbolTable}
    {code : Code} (h : EmitsAll site stmts t code t') :
    code.Performs (actionsAll stmts) := by
  match h with
  | .nil => exact .nil
  | .cons hstmt hstmts => exact hstmt.acts.append hstmts.acts

end

end Stmt

/-- **A routine performs the actions of its body.** -/
theorem Routine.EmittedFor.acts {r : Routine} {symbols : SymbolTable}
    {constants : Constants} {d : Definition Judged}
    (h : r.EmittedFor symbols constants d) : r.code.Performs d.actions := by
  obtain ⟨site, code, t, t', -, -, hcode, hemits, -⟩ := h.body
  rw [hcode]
  have henter := hemits.acts.behindSilent (i := .enter) rfl
  exact (henter.behindSilent (by rfl)).andSilent rfl

/-- **The emitter neither drops, doubles nor reorders what a program does.**
Whatever a typed program has on its nodes and in its table, if code is emitted
for it, there is one routine for each body, in order, and its calls, inputs,
computations and comparisons, in the order of the code, are those of the body,
operands first and from left to right. Each call stands directly behind the
row of its arguments, and no other argument is set aside. -/
theorem TypedProgram.emit_performs {p : TypedProgram} {a : Assembly}
    (h : p.emit = .ok a) :
    List.Forall₂ (fun d r => r.name = d.name
        ∧ r.code.filterMap Instr.action? = d.actions.map Prod.fst
        ∧ r.code.Performs d.actions) p.program.bodies a.bodies := by
  obtain ⟨constants, hbodies⟩ := (emits_of_emit h).emittedFor_bodies
  exact hbodies.imp fun d r hr =>
    ⟨hr.name, hr.acts.filterMap_action?, hr.acts⟩

/-- The code of the doubling program performs what its bodies do. -/
theorem TypedProgram.emit_performs_doubling : ∃ typed a,
    Program.doubling.check = .ok typed ∧ typed.emit = .ok a
      ∧ List.Forall₂ (fun d r => r.name = d.name
        ∧ r.code.filterMap Instr.action? = d.actions.map Prod.fst
        ∧ r.code.Performs d.actions) typed.program.bodies a.bodies := by
  obtain ⟨a, hcompile⟩ := Program.exists_compile_doubling
  obtain ⟨typed, hcheck, hemit⟩ := Program.compile_eq_ok.mp hcompile
  exact ⟨typed, a, hcheck, hemit, emit_performs hemit⟩

/-- A call in an argument comes before the call around it. -/
example : Expr.actions (.call () "f" [.call () "g" [.var () "x"],
      .binary () (.arith .add) (.var () "x") (.input () (.var () "s"))])
    = [(.call "g", 1), (.input, 0), (.arith .add, 0), (.call "f", 2)] := rfl

end Primer
