import Primer.Proofs.Safety

/-!
# Where variables without a value come from

All the blocks of a body share one scope. A variable that is introduced in a
block is known after the block as well, and there it has a value only if
control went through the block. Were a variable forgotten where its block
ends, nothing would be read before it is set. So the shared scope is the only
way for a checked program to fail by reading such a variable.

The variables that are *visible* at a statement are the parameters and those
that are introduced before it, in its own block or in a block around it. What
is used though it is not visible is a *stray* (`Definition.strays`). The
evaluator keeps to it that every visible variable has a value
(`Env.Shows`): a statement takes no value away, and one that introduces a
variable gives it a value. This holds at each turn of a loop, for the body of
a loop sees what is visible before the loop and nothing of its own last turn.
Hence a variable without a value is a stray of the body that reads it, and
the same is true of the code.
-/

namespace Primer

variable {α : Type}

/-! ## Strays -/

namespace Expr

mutual

/-- The variables that an expression reads. -/
def reads : Expr α → List Ident
  | lit _ _ => []
  | var _ name => [name]
  | binary _ _ lhs rhs => reads lhs ++ reads rhs
  | not _ operand => reads operand
  | input _ prompt => reads prompt
  | convert _ _ operand => reads operand
  | call _ _ args => readsAll args

/-- The variables that expressions read. -/
def readsAll : List (Expr α) → List Ident
  | [] => []
  | e :: es => reads e ++ readsAll es

end

end Expr

/-- The names that are not among the visible ones. -/
def hidden (visible names : List Ident) : List Ident :=
  names.filter (· ∉ visible)

theorem mem_hidden {visible names : List Ident} {name : Ident} :
    name ∈ hidden visible names ↔ name ∈ names ∧ name ∉ visible := by
  rw [hidden, List.mem_filter, decide_eq_true_iff]

namespace Stmt

/-- What a statement makes visible to the statements after it in its block. -/
def shows : Stmt α → List Ident
  | introduce _ name _ _ => [name]
  | assign _ _ _ | update _ _ _ _ | pass _ | print _ _ | ret _ _
  | retUnit _ | call _ _ _ | ifElse _ _ _ _ | whileLoop _ _ _ => []

mutual

/-- **The strays of a statement**: the variables that it uses, by reading or
updating them, and that are not visible where it does. -/
def strays (visible : List Ident) : Stmt α → List Ident
  | introduce _ _ _ init => hidden visible init.reads
  | assign _ _ value => hidden visible value.reads
  | update _ _ name operand => hidden visible (name :: operand.reads)
  | pass _ => []
  | print _ args => hidden visible (Expr.readsAll args)
  | ret _ value => hidden visible value.reads
  | retUnit _ => []
  | call _ _ args => hidden visible (Expr.readsAll args)
  | ifElse _ cond thenBlock elseBlock =>
    hidden visible cond.reads ++ (straysAll visible thenBlock.stmts
      ++ straysAll visible elseBlock.stmts)
  | whileLoop _ cond body =>
    hidden visible cond.reads ++ straysAll visible body.stmts

/-- The strays of the statements of a block, each of which sees what those
before it show. -/
def straysAll (visible : List Ident) : List (Stmt α) → List Ident
  | [] => []
  | stmt :: stmts =>
    strays visible stmt ++ straysAll (shows stmt ++ visible) stmts

end

end Stmt

/-- **The strays of a definition**, whose parameters are visible all over it.
-/
def Definition.strays (d : Definition α) : List Ident :=
  Stmt.straysAll (d.params.map Prod.fst) d.body.stmts

/-- **Variables are used in their blocks only**: every use of a variable comes
after its introduction and in the same block, or in a block within the
statements that come after it there. -/
def Program.IsBlockScoped (p : Program α) : Prop :=
  ∀ d ∈ p.bodies, d.strays = []

instance (p : Program α) : Decidable p.IsBlockScoped :=
  inferInstanceAs (Decidable (∀ d ∈ p.bodies, d.strays = []))

/-! ## What lacks a value is a stray -/

/-- **The ways in which an evaluation may stop** if no variable lacks a value
but the strays of the body that reads it. -/
def Program.LacksStrays (p : Program α) : Stop → Prop
  | .failed (.unset name body) =>
    ∃ d ∈ p.bodies, d.name = body ∧ name ∈ d.strays
  | _ => True

/-- Names that may lack a value in a body. -/
def Program.MayLack (p : Program α) (body : Ident) (names : List Ident) :
    Prop :=
  ∀ name ∈ names, p.LacksStrays (.failed (.unset name body))

theorem Program.mayLack_append {p : Program α} {body : Ident}
    {names others : List Ident} : p.MayLack body (names ++ others)
      ↔ p.MayLack body names ∧ p.MayLack body others :=
  List.forall_mem_append

theorem Program.mayLack_hidden_append {p : Program α} {body : Ident}
    {visible names others : List Ident} :
    p.MayLack body (hidden visible (names ++ others))
      ↔ p.MayLack body (hidden visible names)
        ∧ p.MayLack body (hidden visible others) := by
  rw [hidden, List.filter_append]
  exact mayLack_append

/-- **An environment shows variables**: they all have values. -/
def Env.Shows (env : Env) (visible : List Ident) : Prop :=
  ∀ name ∈ visible, env name ≠ none

/-- Giving a variable a value shows it, and hides no other. -/
theorem Env.Shows.set {env : Env} {visible : List Ident}
    (h : env.Shows visible) (name : Ident) (value : Literal) :
    (env.set name value).Shows (name :: visible) := by
  intro other hother
  unfold Env.set
  by_cases heq : other = name
  · rw [if_pos heq]
    exact nofun
  · rw [if_neg heq]
    exact h other ((List.mem_cons.mp hother).resolve_left heq)

theorem Env.Shows.mono {env : Env} {visible visible' : List Ident}
    (h : env.Shows visible) (hsub : visible' ⊆ visible) : env.Shows visible' :=
  fun name hname => h name (hsub hname)

open Eval

section Values

variable {p : Program α}

theorem Literal.ensures_asInt (v : Literal) :
    Ensures p.LacksStrays v.asInt fun _ => True := by
  cases v with
  | int => exact .pure trivial
  | str | bool | unit => exact .stop trivial

theorem Literal.ensures_asStr (v : Literal) :
    Ensures p.LacksStrays v.asStr fun _ => True := by
  cases v with
  | str => exact .pure trivial
  | int | bool | unit => exact .stop trivial

theorem Literal.ensures_asBool (v : Literal) :
    Ensures p.LacksStrays v.asBool fun _ => True := by
  cases v with
  | bool => exact .pure trivial
  | int | str | unit => exact .stop trivial

theorem ArithOp.ensures_apply (op : ArithOp) (body : Ident) (a b : Literal) :
    Ensures p.LacksStrays (op.apply body a b) fun _ => True := by
  refine a.ensures_asInt.bind fun m _ => b.ensures_asInt.bind fun n _ => ?_
  split
  · exact .stop trivial
  · exact .pure trivial

theorem Comparison.ensures_apply (op : Comparison) (a b : Literal) :
    Ensures p.LacksStrays (op.apply a b) fun _ => True :=
  a.ensures_asInt.bind fun _ _ => b.ensures_asInt.bind fun _ _ => .pure trivial

/-- Conversions lack no variable. -/
theorem Conversion.ensures_apply (target : Conversion) (v : Literal) :
    Ensures p.LacksStrays (target.apply v) fun _ => True := by
  cases target with
  | toStr => cases v with
    | int | str | bool => exact .pure trivial
    | unit => exact .stop trivial
  | toInt => cases v with
    | int | bool => exact .pure trivial
    | unit => exact .stop trivial
    | str s =>
      show Ensures _ (numeral s) _
      unfold numeral
      split
      · exact .pure trivial
      · exact .stop trivial

theorem Eval.ensures_read : Ensures p.LacksStrays read fun _ => True := by
  rintro ⟨input, output⟩
  cases input <;> trivial

theorem Eval.ensures_write (text : String) :
    Ensures p.LacksStrays (write text) fun _ => True := fun _ => trivial

/-- **What lacks a value is hidden**, if the environment shows what is visible.
-/
theorem Env.Shows.ensures_read {env : Env} {visible : List Ident}
    (h : env.Shows visible) {body name : Ident}
    (hlack : p.MayLack body (hidden visible [name])) :
    Ensures p.LacksStrays (env.read body name) fun _ => True := by
  unfold Env.read
  split
  · exact .pure trivial
  · next hnone =>
    refine .stop (hlack name (mem_hidden.mpr ⟨List.mem_singleton_self _, ?_⟩))
    exact fun hvisible => h name hvisible hnone

end Values

/-! ## Expressions -/

/-- Calls lack no variables but strays. -/
def Calls.LackStrays (calls : Calls) (p : Program α) : Prop :=
  ∀ callee args, Ensures p.LacksStrays (calls callee args) fun _ => True

section Bodies

variable {p : Program α} {calls : Calls} {body : Ident} {visible : List Ident}
  {env : Env}

namespace Expr

mutual

/-- **An expression lacks no variable that is visible.** -/
theorem ensures_eval (hcalls : calls.LackStrays p) (henv : env.Shows visible)
    (e : Expr α) (hlack : p.MayLack body (hidden visible e.reads)) :
    Ensures p.LacksStrays (e.eval calls body env) fun _ => True := by
  match e with
  | lit _ _ => exact .pure trivial
  | var _ _ => exact henv.ensures_read hlack
  | binary _ op lhs rhs =>
    obtain ⟨hleft, hright⟩ := Program.mayLack_hidden_append.mp hlack
    have hlhs := ensures_eval hcalls henv lhs hleft
    have hrhs := ensures_eval hcalls henv rhs hright
    cases op with
    | arith op =>
      exact hlhs.bind fun a _ => hrhs.bind fun b _ => op.ensures_apply _ a b
    | compare op =>
      exact hlhs.bind fun a _ => hrhs.bind fun b _ => op.ensures_apply a b
    | logic op =>
      refine hlhs.bind fun a _ => a.ensures_asBool.bind fun first _ => ?_
      split
      · exact .pure trivial
      · exact hrhs
  | not _ operand =>
    exact (ensures_eval hcalls henv operand hlack).bind fun a _ =>
      a.ensures_asBool.bind fun _ _ => .pure trivial
  | input _ prompt =>
    exact (ensures_eval hcalls henv prompt hlack).bind fun a _ =>
      a.ensures_asStr.bind fun text _ => (ensures_write text).bind
        fun _ _ => ensures_read.bind fun _ _ => .pure trivial
  | convert _ target operand =>
    exact (ensures_eval hcalls henv operand hlack).bind fun a _ =>
      target.ensures_apply a
  | call _ callee args =>
    exact (ensures_evalArgs hcalls henv args hlack).bind fun values _ =>
      hcalls callee values

/-- Arguments lack no variable that is visible. -/
theorem ensures_evalArgs (hcalls : calls.LackStrays p)
    (henv : env.Shows visible) (args : List (Expr α))
    (hlack : p.MayLack body (hidden visible (readsAll args))) :
    Ensures p.LacksStrays (evalArgs calls body env args) fun _ => True := by
  match args with
  | [] => exact .pure trivial
  | arg :: args =>
    obtain ⟨hfirst, hrest⟩ := Program.mayLack_hidden_append.mp hlack
    exact (ensures_eval hcalls henv arg hfirst).bind fun _ _ =>
      (ensures_evalArgs hcalls henv args hrest).bind fun _ _ => .pure trivial

end

theorem ensures_print (hcalls : calls.LackStrays p) (henv : env.Shows visible)
    (e : Expr α) (hlack : p.MayLack body (hidden visible e.reads)) :
    Ensures p.LacksStrays (e.print calls body env) fun _ => True :=
  (e.ensures_eval hcalls henv hlack).bind fun _ _ => ensures_write _

/-- Printing more values lacks no variable that is visible. -/
theorem ensures_printMore (hcalls : calls.LackStrays p)
    (henv : env.Shows visible) (es : List (Expr α))
    (hlack : p.MayLack body (hidden visible (readsAll es))) :
    Ensures p.LacksStrays (printMore calls body env es) fun _ => True := by
  induction es with
  | nil => exact .pure trivial
  | cons e es ih =>
    obtain ⟨hfirst, hrest⟩ := Program.mayLack_hidden_append.mp hlack
    exact (ensures_write _).bind fun _ _ =>
      (e.ensures_print hcalls henv hfirst).bind fun _ _ => ih hrest

/-- **Printing values lacks no variable that is visible.** -/
theorem ensures_printAll (hcalls : calls.LackStrays p)
    (henv : env.Shows visible) (es : List (Expr α))
    (hlack : p.MayLack body (hidden visible (readsAll es))) :
    Ensures p.LacksStrays (printAll calls body env es) fun _ => True := by
  cases es with
  | nil => exact .pure trivial
  | cons e es =>
    obtain ⟨hfirst, hrest⟩ := Program.mayLack_hidden_append.mp hlack
    exact (e.ensures_print hcalls henv hfirst).bind fun _ _ =>
      ensures_printMore hcalls henv es hrest

end Expr

/-! ## Statements -/

/-- **What comes of a statement shows variables**, if control goes on. -/
def Flow.Shows (visible : List Ident) : Flow → Prop
  | .next env => env.Shows visible
  | .returned _ => True

theorem Flow.Shows.mono {flow : Flow} {visible visible' : List Ident}
    (h : flow.Shows visible) (hsub : visible' ⊆ visible) :
    flow.Shows visible' := by
  cases flow with
  | next env => exact Env.Shows.mono h hsub
  | returned value => trivial

/-- **A loop hides nothing** that is visible before it, and lacks nothing if
its condition and its body do not, one time round. -/
theorem Eval.ensures_loop {cond : Env → Eval Bool} {once : Env → Eval Flow}
    (hcond : ∀ env : Env, env.Shows visible →
      Ensures p.LacksStrays (cond env) fun _ => True)
    (honce : ∀ env : Env, env.Shows visible →
      Ensures p.LacksStrays (once env) (Flow.Shows visible))
    (fuel : Nat) (henv : env.Shows visible) :
    Ensures p.LacksStrays (loop cond once fuel env) (Flow.Shows visible) := by
  induction fuel generalizing env with
  | zero => exact .stop trivial
  | succ fuel ih =>
    refine (hcond env henv).bind fun holds _ => ?_
    cases holds with
    | false => exact .pure henv
    | true =>
      refine (honce env henv).bind fun flow hflow => ?_
      cases flow with
      | next env => exact ih hflow
      | returned value => exact .pure trivial

namespace Stmt

variable {fuel : Nat}

mutual

/-- **A statement lacks no variable that is visible**, and what it shows is
visible after it. -/
theorem ensures_exec (hcalls : calls.LackStrays p) {visible : List Ident}
    {env : Env} (henv : env.Shows visible) (stmt : Stmt α)
    (hlack : p.MayLack body (stmt.strays visible)) :
    Ensures p.LacksStrays (stmt.exec calls body fuel env)
      (Flow.Shows (stmt.shows ++ visible)) := by
  match stmt with
  | introduce _ name _ init =>
    exact (init.ensures_eval hcalls henv hlack).bind fun value _ =>
      .pure (henv.set name value)
  | assign _ name value =>
    exact (value.ensures_eval hcalls henv hlack).bind fun value _ =>
      .pure ((henv.set name value).mono (List.subset_cons_self _ _))
  | update _ op name operand =>
    have hlack : p.MayLack body (hidden visible ([name] ++ operand.reads)) :=
      hlack
    obtain ⟨hname, hoperand⟩ := Program.mayLack_hidden_append.mp hlack
    exact (henv.ensures_read hname).bind fun current _ =>
      (operand.ensures_eval hcalls henv hoperand).bind fun value _ =>
        (op.op.ensures_apply body current value).bind fun value _ =>
          .pure ((henv.set name value).mono (List.subset_cons_self _ _))
  | pass _ => exact .pure henv
  | print _ args =>
    exact (Expr.ensures_printAll hcalls henv args hlack).bind fun _ _ =>
      (ensures_write _).bind fun _ _ => .pure henv
  | ret _ value =>
    exact (value.ensures_eval hcalls henv hlack).bind fun _ _ =>
      .pure trivial
  | retUnit _ => exact .pure trivial
  | call _ callee args =>
    exact (Expr.ensures_evalArgs hcalls henv args hlack).bind
      fun values _ => (hcalls callee values).bind fun _ _ => .pure henv
  | ifElse _ cond thenBlock elseBlock =>
    obtain ⟨hcond, hblocks⟩ := Program.mayLack_append.mp hlack
    obtain ⟨hthen, helse⟩ := Program.mayLack_append.mp hblocks
    refine (cond.ensures_eval hcalls henv hcond).bind fun value _ =>
      value.ensures_asBool.bind fun holds _ => ?_
    split
    · exact ensures_execAll hcalls henv thenBlock.stmts hthen
    · exact ensures_execAll hcalls henv elseBlock.stmts helse
  | whileLoop _ cond block =>
    obtain ⟨hcond, hblock⟩ := Program.mayLack_append.mp hlack
    refine ensures_loop (fun env henv => ?_) (fun env henv =>
      ensures_execAll hcalls henv block.stmts hblock) fuel henv
    exact (cond.ensures_eval hcalls henv hcond).bind fun value _ =>
      value.ensures_asBool

/-- **The statements of a block lack no variable that is visible.** After the
block, what it shows is hidden again. -/
theorem ensures_execAll (hcalls : calls.LackStrays p)
    {visible : List Ident} {env : Env} (henv : env.Shows visible)
    (stmts : List (Stmt α))
    (hlack : p.MayLack body (straysAll visible stmts)) :
    Ensures p.LacksStrays (execAll calls body fuel stmts env)
      (Flow.Shows visible) := by
  match stmts with
  | [] => exact .pure henv
  | stmt :: stmts =>
    obtain ⟨hfirst, hrest⟩ := Program.mayLack_append.mp hlack
    refine (ensures_exec hcalls henv stmt hfirst).bind fun flow hflow => ?_
    cases flow with
    | returned value => exact .pure trivial
    | next env =>
      exact (ensures_execAll hcalls hflow stmts hrest).mono fun _ hshows =>
        hshows.mono (List.subset_append_right _ _)

end

end Stmt

end Bodies

/-! ## Programs -/

/-- Giving values to variables shows them, and hides no other. -/
theorem Env.Shows.foldl_set {params visible : List Ident}
    {args : List Literal} (h : args.length = params.length) {env : Env}
    (henv : env.Shows visible) :
    Env.Shows ((params.zip args).foldl (fun env b => env.set b.1 b.2) env)
      (params ++ visible) := by
  induction params generalizing args env visible with
  | nil => exact henv
  | cons param params ih =>
    cases args with
    | nil => cases h
    | cons arg args =>
      exact (ih (Nat.succ.inj h) (henv.set param arg)).mono
        List.perm_middle.symm.subset

/-- **The parameters of a call have values.** -/
theorem Env.enter_shows {params : List Ident} {args : List Literal}
    (h : args.length = params.length) :
    (Env.enter params args).Shows params := by
  have hempty : Env.empty.Shows [] := nofun
  exact (hempty.foldl_set h).mono (List.subset_append_left _ _)

section Programs

variable {p : Program α}

/-- A definition of the program lacks no variables but strays. -/
theorem Definition.ensures_exec {calls : Calls} (hcalls : calls.LackStrays p)
    {d : Definition α} (hd : d ∈ p.bodies) (fuel : Nat)
    (args : List Literal) :
    Ensures p.LacksStrays (d.exec calls fuel args) fun _ => True := by
  unfold Definition.exec
  split
  · next hlen =>
    refine (Stmt.ensures_execAll hcalls (Env.enter_shows ?_) d.body.stmts
      fun name hname => ⟨d, hd, rfl, hname⟩).bind fun flow _ => ?_
    · rw [hlen, List.length_map]
    · cases flow with
      | next => exact .stop trivial
      | returned => exact .pure trivial
  · exact .stop trivial

namespace Program

/-- Calls lack no variables but strays, whatever fuel there is. -/
theorem lackStrays_call (p : Program α) (fuel : Nat) :
    (p.call fuel).LackStrays p := by
  induction fuel with
  | zero => exact fun _ _ => .stop trivial
  | succ fuel ih =>
    intro callee args
    unfold call
    split
    · next d hd =>
      have hmem := List.mem_of_find?_eq_some hd
      exact Definition.ensures_exec ih (List.mem_append_left _ hmem) fuel args
    · exact .stop trivial

/-- **A program lacks no variables but strays.** -/
theorem ensures_exec (p : Program α) (fuel : Nat) :
    Ensures p.LacksStrays (p.exec fuel) fun _ => True := by
  have hempty : Env.empty.Shows [] := nofun
  refine (Stmt.ensures_execAll (p.lackStrays_call fuel) hempty p.main.stmts
    fun name hname => ?_).bind fun flow _ => ?_
  · exact ⟨p.script, List.mem_append_right _ (List.mem_singleton_self _), rfl,
      hname⟩
  · cases flow with
    | next => exact .pure trivial
    | returned => exact .stop trivial

end Program

end Programs

/-! ## The theorem -/

namespace Program

variable {p : Program Span} {a : Assembly}

/-- **A run that lacks a variable lacks a stray** of the body that the error
names. -/
theorem exists_stray (hcompile : p.compile = .ok a)
    (hplain : p.HasPlainNames) {limit : Option Nat} {horizon : Nat}
    {s s' : Session} {name body : Ident}
    (hrun : a.run limit horizon s = some (.failed (.unset name body), s')) :
    ∃ d ∈ p.bodies, d.name = body ∧ name ∈ d.strays := by
  obtain ⟨l, -, hlimit⟩ | hafter := Transition.follow_limit hrun
  · cases hlimit
  rcases crashes_or_settles hcompile hplain s with
    ⟨-, n, s'', hcrash⟩ | hsettles
  · cases (Transition.after_unique hafter hcrash).1
  · cases ends_of_after hsettles hafter with
    | @failed fuel _ _ hexec =>
      have hensures := p.ensures_exec fuel s.world
      rw [hexec] at hensures
      exact hensures

/-- **Where variables are used in their blocks only, none lacks a value**: no
run of the code ends because a place is not set, whatever the session and the
step limit. -/
theorem compile_lacks_nothing (hcompile : p.compile = .ok a)
    (hplain : p.HasPlainNames) (hscoped : p.IsBlockScoped)
    {limit : Option Nat} {horizon : Nat} {s s' : Session} {outcome : Outcome}
    (hrun : a.run limit horizon s = some (outcome, s')) (name body : Ident) :
    outcome ≠ .failed (.unset name body) := by
  rintro rfl
  obtain ⟨d, hd, -, hstray⟩ := exists_stray hcompile hplain hrun
  rw [hscoped d hd] at hstray
  exact List.not_mem_nil hstray

/-- A run of the doubling program, whose main script introduces a variable and
uses it in a loop, ends and lacks nothing. -/
theorem doubling_lacks_nothing : ∃ a outcome s',
    doubling.compile = .ok a
      ∧ a.run (some 100) 100 (.fresh [3, 0]) = some (outcome, s')
      ∧ ∀ name body, outcome ≠ .failed (.unset name body) := by
  obtain ⟨a, outcome, s', hcompile, hrun⟩ := exists_run_doubling
  have hplain : doubling.HasPlainNames := ⟨by decide, by decide, by decide⟩
  have hscoped : doubling.IsBlockScoped := by decide
  exact ⟨a, outcome, s', hcompile, hrun,
    compile_lacks_nothing hcompile hplain hscoped hrun⟩

/-- A program with a stray: a variable is introduced in a branch that is not
taken, and read after it. -/
def straying : Program Span where
  definitions := []
  main := .spanning [
    .ifElse .origin (.lit .origin (.bool false))
      (.spanning [.introduce .origin "x" .int (.lit .origin (.int 1))])
      (.spanning []),
    .print .origin [.var .origin "x"]]

-- the checker accepts the stray, and the run lacks it
example : straying.script.strays = ["x"]
    ∧ (straying.compile.toOption.bind fun a =>
      (a.run none 20 (.fresh [])).map Prod.fst)
        = some (.failed (.unset "x" "main")) := by
  decide +kernel

end Program

end Primer
