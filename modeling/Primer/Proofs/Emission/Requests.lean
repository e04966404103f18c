import Primer.Emission.Program
import Primer.Proofs.Renaming.Basic

/-!
# What emission asks of a symbol table

Code takes names from a symbol table: those of temporaries, of labels and of
texts. Which names it gets depends on the table, and the table depends on all
that was emitted before. What it *asks* for does not: the requests of a
statement can be read off the statement (`Stmt.requests`), and no answer has
an influence on the next request.

So the code of one piece, emitted over two tables, differs by the answers and
by nothing else. `SymbolTable.AnswerAlike` says that the answers of the second
table are those of the first one under new names. Then the code over the
second is the code over the first one under these names, and the tables
afterwards are the ones that have served the requests. That is `Emit.Mirrors`,
and it holds of two emissions, one after the other, if it holds of each
(`Emit.Mirrors.bind`). The source may be renamed on the way, and the body may
have another scope in the second table.
-/

namespace Primer

/-! ## Requests -/

/-- **What emission asks of a table.** -/
inductive Request where
  /-- A temporary of the body. -/
  | temporary (ty : Ty)
  /-- A label of the body. -/
  | label (hint : String)
  /-- The name of a text. -/
  | constant (text : String)

namespace Request

/-- **The answer to a request** for the body with a scope, and the table after
it. -/
def answer (id : ScopeId) (t : SymbolTable) : Request → String × SymbolTable
  | temporary ty => t.freshTemporary id ty
  | label hint => t.freshLabel id (some hint)
  | constant text => t.intern text

/-- The new name of an answer. -/
def rename (ν : Names) : Request → String → String
  | temporary _ => ν.slot
  | label _ | constant _ => ν.routine

/-- The requests of a selection. -/
def selecting (condition : List Request) : List Request :=
  label "true" :: label "false" :: label "join" :: condition

/-- The requests of code that stores, if it has to branch or not. -/
def byStoring (ty : Ty) (value : List Request) : Bool → List Request
  | false => value
  | true => temporary ty :: value

/-- The requests of code that branches, if it has to branch or not. -/
def byBranching (condition : List Request) : Bool → List Request
  | true => condition
  | false => temporary .bool :: selecting condition

end Request

namespace SymbolTable

/-- **The table after it has served requests**, one after the other. -/
def serve (id : ScopeId) : List Request → SymbolTable → SymbolTable
  | [], t => t
  | r :: rs, t => serve id rs (r.answer id t).2

/-- **Two tables answer alike**: the answers of the second are those of the
first under new names. -/
def AnswerAlike (ν : Names) (id id' : ScopeId) :
    List Request → SymbolTable → SymbolTable → Prop
  | [], _, _ => True
  | r :: rs, t, u => (r.answer id' u).1 = r.rename ν (r.answer id t).1
    ∧ AnswerAlike ν id id' rs (r.answer id t).2 (r.answer id' u).2

variable {ν : Names} {id id' : ScopeId}

theorem serve_append (rs rs' : List Request) (t : SymbolTable) :
    t.serve id (rs ++ rs') = (t.serve id rs).serve id rs' := by
  induction rs generalizing t with
  | nil => rfl
  | cons r rs ih => exact ih _

theorem answerAlike_append {rs rs' : List Request} {t u : SymbolTable} :
    AnswerAlike ν id id' (rs ++ rs') t u ↔ AnswerAlike ν id id' rs t u
      ∧ AnswerAlike ν id id' rs' (t.serve id rs) (u.serve id' rs) := by
  induction rs generalizing t u with
  | nil => exact (iff_of_eq (true_and _)).symm
  | cons r rs ih => exact (and_congr_right fun _ => ih).trans and_assoc.symm

/-- A table answers like itself. -/
theorem answerAlike_same (rs : List Request) (t : SymbolTable) :
    t.AnswerAlike .same id id rs t := by
  induction rs generalizing t with
  | nil => trivial
  | cons r rs ih =>
    refine ⟨?_, ih _⟩
    cases r <;> rfl

end SymbolTable

/-! ## What a program asks for -/

namespace Expr

/-- The requests for two operands that are stored. -/
def operandRequests (lhs rhs : Expr Judged) (left right : List Request) :
    List Request :=
  .temporary lhs.ty :: (left ++ .temporary rhs.ty :: right)

mutual

/-- **The requests of an expression**, if it has to branch or not. -/
def requests : Expr Judged → Bool → List Request
  | lit note (.int _) => Request.byStoring note.ty []
  | lit note (.str s) => Request.byStoring note.ty [.constant s]
  | lit _ (.bool _) => fun _ => []
  | lit note .unit => Request.byStoring note.ty []
  | var _ _ => fun _ => []
  | binary note (.arith _) lhs rhs => Request.byStoring note.ty
    (operandRequests lhs rhs (requests lhs false) (requests rhs false))
  | binary _ (.compare _) lhs rhs => Request.byBranching
    (operandRequests lhs rhs (requests lhs false) (requests rhs false))
  | binary _ (.logic .and) lhs rhs =>
    Request.byBranching
      (.label "and" :: (requests lhs true ++ requests rhs true))
  | binary _ (.logic .or) lhs rhs =>
    Request.byBranching
      (.label "or" :: (requests lhs true ++ requests rhs true))
  | not _ operand => Request.byBranching (requests operand true)
  | input note prompt =>
    Request.byStoring note.ty (.temporary .str :: requests prompt false)
  | convert note target operand => Request.byStoring note.ty
    (match target, operand.ty with
    | .toInt, .str => .temporary .str :: requests operand false
    | .toStr, .int => .temporary .int :: requests operand false
    | .toStr, .bool => Request.selecting (requests operand true)
    | _, _ => requests operand false)
  | call note _ args => Request.byStoring note.ty (requestsArgs args)

/-- The requests of arguments. -/
def requestsArgs : List (Expr Judged) → List Request
  | [] => []
  | arg :: args =>
    .temporary arg.ty :: (requests arg false ++ requestsArgs args)

end

/-- The requests of code that writes a value. -/
def printRequests (arg : Expr Judged) : List Request :=
  match arg.ty with
  | .int => .temporary .int :: arg.requests false
  | .str => .temporary .str :: arg.requests false
  | .bool => .temporary .str :: Request.selecting (arg.requests true)
  | .unit => .temporary .unit :: (arg.requests false ++ [.temporary .str])

/-- The requests of code that writes values, each after a blank. -/
def moreRequests : List (Expr Judged) → List Request
  | [] => []
  | arg :: args =>
    .temporary .str :: (arg.printRequests ++ moreRequests args)

/-- The requests of code that writes values with a blank between two. -/
def lineRequests : List (Expr Judged) → List Request
  | [] => []
  | arg :: args => arg.printRequests ++ moreRequests args

end Expr

namespace Stmt

mutual

/-- **The requests of a statement.** -/
def requests : Stmt Judged → List Request
  | introduce _ _ _ init => init.requests false
  | assign _ _ value => value.requests false
  | update _ _ _ operand =>
    .temporary .int :: .temporary operand.ty :: operand.requests false
  | pass _ => []
  | print _ args => Expr.lineRequests args ++ [.temporary .str]
  | ret _ value => .temporary value.ty :: value.requests false
  | retUnit _ => [.temporary .unit]
  | call _ _ args => Expr.requestsArgs args
  | ifElse _ cond thenBlock elseBlock =>
    .label "then" :: .label "else" :: .label "endif" ::
      (cond.requests true ++ (requestsAll thenBlock.stmts
        ++ requestsAll elseBlock.stmts))
  | whileLoop _ cond body =>
    .label "loop" :: .label "body" :: .label "endwhile" ::
      (cond.requests true ++ requestsAll body.stmts)

/-- The requests of statements. -/
def requestsAll : List (Stmt Judged) → List Request
  | [] => []
  | stmt :: stmts => requests stmt ++ requestsAll stmts

end

end Stmt

/-- **The requests of a definition**: its exit, then its body. -/
def Definition.requests (d : Definition Judged) : List Request :=
  .label "done" :: Stmt.requestsAll d.body.stmts

/-- The requests for the texts that any code may print. -/
def Constants.requests : List Request :=
  [.constant "\n", .constant " ", .constant "True", .constant "False",
    .constant "None"]

/-! ## Emission over two tables -/

/-- **An emission mirrors another under new names**: over tables that answer
the requests alike, its result is what `f` makes of the result of the other,
and both tables have served the requests. -/
def Emit.Mirrors {β γ : Type} (ν : Names) (id id' : ScopeId)
    (rs : List Request) (f : β → γ) (x : Emit β) (y : Emit γ) : Prop :=
  ∀ t u : SymbolTable, t.AnswerAlike ν id id' rs u →
    (x.run t).2 = t.serve id rs ∧ (y.run u).2 = u.serve id' rs
      ∧ (y.run u).1 = f (x.run t).1

namespace Emit.Mirrors

variable {ν : Names} {id id' : ScopeId} {rs rs' : List Request}
  {β β' γ γ' : Type} {f : β → β'} {g : γ → γ'}

theorem pure {b : β} {b' : β'} (h : b' = f b) :
    Mirrors ν id id' [] f (Pure.pure b) (Pure.pure b') :=
  fun _ _ _ => ⟨rfl, rfl, h⟩

theorem request (r : Request) : Mirrors ν id id' [r] (r.rename ν)
    (modifyGet (r.answer id ·)) (modifyGet (r.answer id' ·)) :=
  fun _ _ h => ⟨rfl, rfl, h.1⟩

/-- **One emission after the other.** -/
theorem bind {x : Emit β} {y : Emit β'} (h : Mirrors ν id id' rs f x y)
    {k : β → Emit γ} {l : β' → Emit γ'}
    (hk : ∀ b, Mirrors ν id id' rs' g (k b) (l (f b))) :
    Mirrors ν id id' (rs ++ rs') g (x >>= k) (y >>= l) := by
  intro t u halike
  obtain ⟨hfirst, hrest⟩ := SymbolTable.answerAlike_append.mp halike
  obtain ⟨ht, hu, hresult⟩ := h t u hfirst
  have hnext := hk (x.run t).1 (t.serve id rs) (u.serve id' rs) hrest
  rw [← ht, ← hu, ← hresult] at hnext
  rw [SymbolTable.serve_append, SymbolTable.serve_append, ← ht, ← hu]
  exact hnext

theorem ask {r : Request} {x : Emit β} {y : Emit β'}
    (h : Mirrors ν id id' [r] f x y) {k : β → Emit γ} {l : β' → Emit γ'}
    (hk : ∀ b, Mirrors ν id id' rs g (k b) (l (f b))) :
    Mirrors ν id id' (r :: rs) g (x >>= k) (y >>= l) := h.bind hk

theorem map {x : Emit β} {y : Emit β'} (h : Mirrors ν id id' rs f x y)
    {k : β → γ} {l : β' → γ'} (hk : ∀ b, l (f b) = g (k b)) :
    Mirrors ν id id' rs g (x >>= fun b => Pure.pure (k b))
      (y >>= fun b => Pure.pure (l b)) := by
  rw [← List.append_nil rs]
  exact h.bind fun b => .pure (hk b)

/-- **The table after an emission** has served the requests. -/
theorem run_snd {x : Emit β} (h : Mirrors .same id id rs f x y)
    (t : SymbolTable) : (x.run t).2 = t.serve id rs :=
  (h t t (SymbolTable.answerAlike_same rs t)).1

end Emit.Mirrors

open Emit

/-- The new names of the texts that any code may print. -/
def Constants.rename (ν : Names) (c : Constants) : Constants where
  newline := ν.routine c.newline
  space := ν.routine c.space
  yes := ν.routine c.yes
  no := ν.routine c.no
  unit := ν.routine c.unit

/-- The body that code is emitted for, with new names. -/
def Site.rename (ν : Names) (site : Site) : Site where
  scope := site.scope
  exit := ν.routine site.exit
  constants := site.constants.rename ν

/-- The body that code is emitted for, with new names and in another scope. -/
def Site.moved (ν : Names) (id : ScopeId) (site : Site) : Site :=
  { site.rename ν with scope := id }

/-- The destination with new names. -/
def Destination.rename (ν : Names) : Destination → Destination
  | store dst => store (ν.slot dst)
  | branch ifTrue ifFalse => branch (ν.routine ifTrue) (ν.routine ifFalse)

/-- Whether the code has to branch. -/
def Destination.branches : Destination → Bool
  | store _ => false
  | branch _ _ => true

variable {ν : Names} {id' : ScopeId} {site : Site}

/-- The texts that any code may print are asked for. -/
theorem Emit.mirrors_constants (ν : Names) (id id' : ScopeId) :
    Mirrors ν id id' Constants.requests (Constants.rename ν) constants
      constants :=
  (Mirrors.request (.constant _)).ask fun _ =>
    (Mirrors.request (.constant _)).ask fun _ =>
      (Mirrors.request (.constant _)).ask fun _ =>
        (Mirrors.request (.constant _)).ask fun _ =>
          (Mirrors.request (.constant _)).map fun _ => rfl

namespace Site

theorem mirrors_temporary (ty : Ty) :
    Mirrors ν site.scope id' [.temporary ty] ν.slot (site.temporary ty)
      ((site.moved ν id').temporary ty) := .request (.temporary ty)

theorem mirrors_label (hint : String) :
    Mirrors ν site.scope id' [.label hint] ν.routine (site.label hint)
      ((site.moved ν id').label hint) := .request (.label hint)

/-- **A selection** asks for three labels. -/
theorem mirrors_select {rs : List Request} (onTrue onFalse : Instr)
    {condition condition' : Label → Label → Emit Code}
    (h : ∀ yes no, Mirrors ν site.scope id' rs (Code.rename ν)
      (condition yes no) (condition' (ν.routine yes) (ν.routine no))) :
    Mirrors ν site.scope id' (Request.selecting rs) (Code.rename ν)
      (site.select onTrue onFalse condition)
      ((site.moved ν id').select (onTrue.rename ν) (onFalse.rename ν)
        condition') :=
  (mirrors_label _).ask fun yes => (mirrors_label _).ask fun no =>
    (mirrors_label _).ask fun _ => (h yes no).map fun code => by
      rw [Code.rename_append]
      rfl

/-- **Storing code** asks for a temporary if it has to branch. -/
theorem mirrors_byStoring (ty : Ty) {rs : List Request}
    {value value' : Slot → Emit Code}
    (h : ∀ dst, Mirrors ν site.scope id' rs (Code.rename ν) (value dst)
      (value' (ν.slot dst))) (dest : Destination) :
    Mirrors ν site.scope id' (Request.byStoring ty rs dest.branches)
      (Code.rename ν) (site.byStoring ty value dest)
      ((site.moved ν id').byStoring ty value' (dest.rename ν)) := by
  cases dest with
  | store dst => exact h dst
  | branch ifTrue ifFalse =>
    exact (mirrors_temporary ty).ask fun temp => (h temp).map fun code => by
      rw [Code.rename_append]
      rfl

/-- **Branching code** asks for a temporary and three labels if it has to
store. -/
theorem mirrors_byBranching {rs : List Request}
    {condition condition' : Label → Label → Emit Code}
    (h : ∀ yes no, Mirrors ν site.scope id' rs (Code.rename ν)
      (condition yes no) (condition' (ν.routine yes) (ν.routine no)))
    (dest : Destination) :
    Mirrors ν site.scope id' (Request.byBranching rs dest.branches)
      (Code.rename ν) (site.byBranching condition dest)
      ((site.moved ν id').byBranching condition' (dest.rename ν)) := by
  cases dest with
  | store dst =>
    exact (mirrors_temporary .bool).ask fun flag =>
      (mirrors_select _ _ h).map fun code => by
        rw [Code.rename_append]
        rfl
  | branch ifTrue ifFalse => exact h ifTrue ifFalse

end Site

/-! ## Expressions -/

theorem Code.rename_setArguments (index : UInt64) (temps : List Slot) :
    rename ν (setArguments index temps)
      = setArguments index (temps.map ν.slot) := by
  induction temps generalizing index with
  | nil => rfl
  | cons temp temps ih => exact congrArg (_ :: ·) (ih _)

namespace Expr

theorem mirrors_operands {lhs rhs : Expr Judged} {left right : List Request}
    {first second : Slot → Emit Code} {first' second' : Slot → Emit Code}
    (hleft : ∀ dst, Mirrors ν site.scope id' left (Code.rename ν) (first dst)
      (first' (ν.slot dst)))
    (hright : ∀ dst, Mirrors ν site.scope id' right (Code.rename ν)
      (second dst) (second' (ν.slot dst)))
    {use use' : Slot → Slot → Instr}
    (huse : ∀ a b, use' (ν.slot a) (ν.slot b) = (use a b).rename ν) :
    Mirrors ν site.scope id' (operandRequests lhs rhs left right)
      (Code.rename ν)
      (do
        let a ← site.temporary lhs.ty
        let leftCode ← first a
        let b ← site.temporary rhs.ty
        let rightCode ← second b
        return leftCode ++ rightCode ++ [use a b])
      (do
        let a ← (site.moved ν id').temporary lhs.ty
        let leftCode ← first' a
        let b ← (site.moved ν id').temporary rhs.ty
        let rightCode ← second' b
        return leftCode ++ rightCode ++ [use' a b]) :=
  (Site.mirrors_temporary _).ask fun a => (hleft a).bind fun _ =>
    (Site.mirrors_temporary _).ask fun b => (hright b).map fun _ => by
      rw [Code.rename_append, Code.rename_append, huse]
      rfl

mutual

/-- **The code for an expression mirrors the code over another table.** -/
theorem mirrors_emit (e : Expr Judged) (dest : Destination) :
    Mirrors ν site.scope id' (e.requests dest.branches) (Code.rename ν)
      (e.emit site dest)
      ((e.rename ν).emit (site.moved ν id') (dest.rename ν)) := by
  match e with
  | .lit note (.int n) | .lit note .unit =>
    exact Site.mirrors_byStoring _ (fun _ => .pure rfl) dest
  | .lit note (.str s) =>
    exact Site.mirrors_byStoring _ (fun _ =>
      (Mirrors.request (.constant s)).map fun _ => rfl) dest
  | .lit note (.bool b) =>
    cases dest with
    | store dst => exact .pure rfl
    | branch ifTrue ifFalse =>
      refine .pure ?_
      cases b <;> rfl
  | .var note name => cases dest <;> exact .pure rfl
  | .binary note (.arith op) lhs rhs =>
    simp only [Expr.rename, Expr.emit, ty_rename]
    exact Site.mirrors_byStoring _ (fun dst => mirrors_operands
      (fun a => mirrors_emit lhs (.store a))
      (fun b => mirrors_emit rhs (.store b)) fun _ _ => rfl) dest
  | .binary note (.compare op) lhs rhs =>
    simp only [Expr.rename, Expr.emit, ty_rename]
    exact Site.mirrors_byBranching (fun yes no => mirrors_operands
      (fun a => mirrors_emit lhs (.store a))
      (fun b => mirrors_emit rhs (.store b)) fun _ _ => rfl) dest
  | .binary note (.logic .and) lhs rhs =>
    refine Site.mirrors_byBranching (fun yes no => ?_) dest
    refine (Site.mirrors_label _).ask fun next => ?_
    refine (mirrors_emit lhs (.branch next no)).bind fun _ => ?_
    refine (mirrors_emit rhs (.branch yes no)).map fun _ => ?_
    rw [Code.rename_append, Code.rename_append]
    rfl
  | .binary note (.logic .or) lhs rhs =>
    refine Site.mirrors_byBranching (fun yes no => ?_) dest
    refine (Site.mirrors_label _).ask fun next => ?_
    refine (mirrors_emit lhs (.branch yes next)).bind fun _ => ?_
    refine (mirrors_emit rhs (.branch yes no)).map fun _ => ?_
    rw [Code.rename_append, Code.rename_append]
    rfl
  | .not note operand =>
    exact Site.mirrors_byBranching (fun yes no =>
      mirrors_emit operand (.branch no yes)) dest
  | .input note prompt =>
    refine Site.mirrors_byStoring _ (fun _ => ?_) dest
    refine (Site.mirrors_temporary _).ask fun temp => ?_
    refine (mirrors_emit prompt (.store temp)).map fun _ => ?_
    rw [Code.rename_append]
    rfl
  | .convert note target operand =>
    have hoperand := mirrors_emit operand
    simp only [Expr.rename, Expr.emit, Expr.requests, ty_rename]
    refine Site.mirrors_byStoring _ (fun dst => ?_) dest
    -- what stores the operand in a temporary puts it to use there
    have hstored (use : Slot → Instr) (use' : Slot → Instr)
        (huse : ∀ temp, use' (ν.slot temp) = (use temp).rename ν) (ty : Ty) :
        Mirrors ν site.scope id' (.temporary ty :: operand.requests false)
          (Code.rename ν)
          (do
            let temp ← site.temporary ty
            let code ← operand.emit site (.store temp)
            return code ++ [use temp])
          (do
            let temp ← (site.moved ν id').temporary ty
            let code ← (operand.rename ν).emit (site.moved ν id')
              (.store temp)
            return code ++ [use' temp]) :=
      (Site.mirrors_temporary ty).ask fun temp =>
        (hoperand (.store temp)).map fun _ => by
          rw [Code.rename_append, huse]
          rfl
    cases target with
    | toInt =>
      cases operand.ty with
      | str => exact hstored (.strToInt dst) _ (fun _ => rfl) _
      | int | bool | unit => exact hoperand (.store dst)
    | toStr =>
      cases operand.ty with
      | int => exact hstored (.intToStr dst) _ (fun _ => rfl) _
      | bool =>
        exact Site.mirrors_select _ _ fun yes no => hoperand (.branch yes no)
      | str | unit => exact hoperand (.store dst)
  | .call note callee args =>
    refine Site.mirrors_byStoring _ (fun _ => ?_) dest
    refine (mirrors_emitArgs args).map fun _ => ?_
    rw [Code.rename_append, Code.rename_append, Code.rename_setArguments]
    rfl

/-- The code for arguments mirrors the code over another table. -/
theorem mirrors_emitArgs (args : List (Expr Judged)) :
    Mirrors ν site.scope id' (requestsArgs args)
      (Prod.map (Code.rename ν) (List.map ν.slot)) (emitArgs site args)
      (emitArgs (site.moved ν id') (renameAll ν args)) := by
  match args with
  | [] => exact .pure rfl
  | arg :: args =>
    simp only [renameAll, emitArgs, ty_rename]
    refine (Site.mirrors_temporary _).ask fun temp => ?_
    refine (mirrors_emit arg (.store temp)).bind fun _ => ?_
    refine (mirrors_emitArgs args).map fun _ => ?_
    exact congrArg (·, _) (Code.rename_append _ _).symm

end

end Expr

/-! ## Statements -/

namespace Site

theorem mirrors_printConstant (text : Label) :
    Mirrors ν site.scope id' [.temporary .str] (Code.rename ν)
      (site.printConstant text)
      ((site.moved ν id').printConstant (ν.routine text)) :=
  (mirrors_temporary _).map fun _ => rfl

/-- **The code that writes a value mirrors the code over another table.** -/
theorem mirrors_printArg (arg : Expr Judged) :
    Mirrors ν site.scope id' arg.printRequests (Code.rename ν)
      (site.printArg arg) ((site.moved ν id').printArg (arg.rename ν)) := by
  have harg : ∀ dest, Mirrors ν site.scope id' _ (Code.rename ν)
      (arg.emit site dest) _ := arg.mirrors_emit
  unfold printArg Expr.printRequests
  rw [Expr.ty_rename]
  cases arg.ty with
  | int | str =>
    refine (mirrors_temporary _).ask fun temp => ?_
    refine (harg (.store temp)).map fun _ => ?_
    rw [Code.rename_append]
    rfl
  | bool =>
    refine (mirrors_temporary _).ask fun temp => ?_
    refine (mirrors_select _ _ fun yes no =>
      harg (.branch yes no)).map fun _ => ?_
    rw [Code.rename_append]
    rfl
  | unit =>
    refine (mirrors_temporary _).ask fun unused => ?_
    refine (harg (.store unused)).bind fun _ => ?_
    refine (mirrors_printConstant _).map fun _ => ?_
    exact (Code.rename_append _ _).symm

/-- The code that writes more values mirrors the code over another table. -/
theorem mirrors_printMore (args : List (Expr Judged)) :
    Mirrors ν site.scope id' (Expr.moreRequests args) (Code.rename ν)
      (site.printMore args)
      ((site.moved ν id').printMore (Expr.renameAll ν args)) := by
  induction args with
  | nil => exact .pure rfl
  | cons arg args ih =>
    refine (mirrors_printConstant _).ask fun _ => ?_
    refine (mirrors_printArg arg).bind fun _ => ih.map fun _ => ?_
    rw [Code.rename_append, Code.rename_append]

/-- The code that writes values mirrors the code over another table. -/
theorem mirrors_printArgs (args : List (Expr Judged)) :
    Mirrors ν site.scope id' (Expr.lineRequests args) (Code.rename ν)
      (site.printArgs args)
      ((site.moved ν id').printArgs (Expr.renameAll ν args)) := by
  cases args with
  | nil => exact .pure rfl
  | cons arg args =>
    refine (mirrors_printArg arg).bind fun _ => ?_
    exact (mirrors_printMore args).map fun _ =>
      (Code.rename_append _ _).symm

end Site

namespace Stmt

mutual

/-- **The code for a statement mirrors the code over another table.** -/
theorem mirrors_emit (stmt : Stmt Judged) :
    Mirrors ν site.scope id' stmt.requests (Code.rename ν) (stmt.emit site)
      ((stmt.rename ν).emit (site.moved ν id')) := by
  match stmt with
  | .introduce _ name _ value | .assign _ name value =>
    exact value.mirrors_emit (.store name)
  | .update _ op name operand =>
    simp only [Stmt.rename, Stmt.emit, Expr.ty_rename]
    refine (Site.mirrors_temporary _).ask fun _ => ?_
    refine (Site.mirrors_temporary _).ask fun temp => ?_
    refine (operand.mirrors_emit (.store temp)).map fun _ => ?_
    rw [Code.rename_append, Code.rename_append]
    rfl
  | .pass _ => exact .pure rfl
  | .print _ args =>
    refine (Site.mirrors_printArgs args).bind fun _ => ?_
    exact (Site.mirrors_printConstant _).map fun _ =>
      (Code.rename_append _ _).symm
  | .ret _ value =>
    simp only [Stmt.rename, Stmt.emit, Expr.ty_rename]
    refine (Site.mirrors_temporary _).ask fun temp => ?_
    refine (value.mirrors_emit (.store temp)).map fun _ => ?_
    rw [Code.rename_append]
    rfl
  | .retUnit _ => exact (Site.mirrors_temporary _).map fun _ => rfl
  | .call _ callee args =>
    refine (Expr.mirrors_emitArgs args).map fun _ => ?_
    rw [Code.rename_append, Code.rename_append, Code.rename_setArguments]
    rfl
  | .ifElse _ cond ⟨thenStmts, _⟩ ⟨elseStmts, _⟩ =>
    refine (Site.mirrors_label _).ask fun thenLabel => ?_
    refine (Site.mirrors_label _).ask fun elseLabel => ?_
    refine (Site.mirrors_label _).ask fun _ => ?_
    refine (cond.mirrors_emit (.branch thenLabel elseLabel)).bind fun _ => ?_
    refine (mirrors_emitAll thenStmts).bind fun _ => ?_
    refine (mirrors_emitAll elseStmts).map fun _ => ?_
    simp only [Code.rename_append]
    rfl
  | .whileLoop _ cond ⟨bodyStmts, _⟩ =>
    refine (Site.mirrors_label _).ask fun _ => ?_
    refine (Site.mirrors_label _).ask fun start => ?_
    refine (Site.mirrors_label _).ask fun done => ?_
    refine (cond.mirrors_emit (.branch start done)).bind fun _ => ?_
    refine (mirrors_emitAll bodyStmts).map fun _ => ?_
    simp only [Code.rename_append]
    rfl

/-- **The code for statements mirrors the code over another table.** -/
theorem mirrors_emitAll (stmts : List (Stmt Judged)) :
    Mirrors ν site.scope id' (requestsAll stmts) (Code.rename ν)
      (emitAll site stmts)
      (emitAll (site.moved ν id') (renameAll ν stmts)) := by
  match stmts with
  | [] => exact .pure rfl
  | stmt :: stmts =>
    refine (mirrors_emit stmt).bind fun _ => ?_
    exact (mirrors_emitAll stmts).map fun _ => (Code.rename_append _ _).symm

end

end Stmt

/-- **The code of a body mirrors the code over another table.** -/
theorem mirrors_emitBody (scope : ScopeId) (constants : Constants)
    (body : Ident) (stmts : List (Stmt Judged)) :
    Mirrors ν scope id' (.label "done" :: Stmt.requestsAll stmts)
      (Code.rename ν) (emitBody constants scope body stmts)
      (emitBody (constants.rename ν) id' (ν.routine body)
        (Stmt.renameAll ν stmts)) := by
  refine (Mirrors.request (.label "done")).ask fun exit => ?_
  have hbody := @Stmt.mirrors_emitAll ν id' ⟨scope, exit, constants⟩ stmts
  refine hbody.map fun _ => ?_
  rw [Code.rename_append, Code.rename_cons, Code.rename_cons]
  rfl

end Primer
