import Primer.Proofs.Simulation.Expressions

/-!
# Code for statements does what they do

A statement takes an environment to an environment, and its code takes a frame
that represents the one to a frame that represents the other; or the statement
returns, and its code goes to the exit with the result set
(`Stmt.Emits.performs`).

A loop goes round as often as there is fuel. Each time round the run passes
the label at the beginning, so a loop that is out of fuel has run for at least
that long (`Setting.Performs.whileLoop`).

What holds of the environment is `Env.Fits`, as in
`Primer.Proofs.Semantics.Soundness`, for the context at the end of the body.
-/

namespace Primer

open SymbolTable

theorem Frame.Runs.outOfFuel {β : Type} {a : Assembly} {room : Prop}
    {callers : List Frame} {f : Frame} {w w' : World}
    {good : β → Frame → Prop} :
    f.Runs a room 0 callers w good (.error .outOfFuel w') :=
  fun m _ _ _ => Or.inr ⟨m, rfl⟩

namespace Setting

variable {S : Setting} {env : Env} {code leftCode rightCode : Code}
  {n₀ n₁ n₂ lo hi : Nat} {temp : Slot} {x : Eval Literal}
  {encode : Literal → Value} {p : Program Judged} {calls : Calls}

/-! ## Printing -/

theorem Prints.nil : S.Prints env [] (pure ()) :=
  ⟨fun hat _ _ => Frame.Runs.pure ⟨hat.rest, hat.ready⟩⟩

/-- **One piece prints after the other.** -/
theorem Prints.append {u v : Eval Unit} (hu : S.Prints env leftCode u)
    (hv : S.Prints env rightCode v) :
    S.Prints env (leftCode ++ rightCode) (do u; v) where
  runs {f k} hat callers w := by
    refine (hu.runs hat.append callers w).bind ?_
    rintro _ f' w' - ⟨hrest, hready⟩
    exact hv.runs (hat.append.goOn hready hrest) callers w'

/-- A text that has a name is printed by way of a temporary. -/
theorem Prints.text {constant : Label} {text : String}
    (htemp : Made n₀ n₁ temp)
    (htext : S.program.symbols.constant? constant = some text) :
    S.Prints env [.loadString temp constant, .printString temp]
      (Eval.write text) where
  runs {f k} hat callers w := by
    refine Frame.Runs.step_le hat.cons (Instr.does_loadString htext) ?_
    refine Frame.Runs.last rfl
      (Instr.does_printString (Store.get?_set_self _ _ _)) ⟨rfl, ?_⟩
    have hkeeps := ((Frame.Keeps.refl (Made n₀ n₁) f).withRest
      (.printString temp :: k)).set htemp (.str text)
    exact (hat.ready_of_made hkeeps).withRest _

/-- An integer in a temporary is printed. -/
theorem Prints.int (h : S.Stores env code temp n₁ n₂ Literal.encode x)
    (htemp : Made n₀ n₁ temp) (hx : x.Yields (·.ty = .int)) :
    S.Prints env (code ++ [.printInt temp])
      (do let value ← x; Eval.write value.printed) where
  runs {f k} hat callers w := by
    refine (h.toTemporary htemp hat callers w).bind ?_
    rintro a f' w' ha ⟨hat', hslot, -⟩
    obtain ⟨n, rfl⟩ := Literal.eq_int (hx _ _ _ ha)
    exact Frame.Runs.last hat'.single (Instr.does_printInt hslot)
      ⟨rfl, hat'.ready.withRest _⟩

/-- A text in a temporary is printed, which is what the value is as it is
printed. -/
theorem Prints.str (h : S.Stores env code temp n₁ n₂ encode x)
    (htemp : Made n₀ n₁ temp)
    (hx : x.Yields fun v => encode v = .str v.printed) :
    S.Prints env (code ++ [.printString temp])
      (do let value ← x; Eval.write value.printed) where
  runs {f k} hat callers w := by
    refine (h.toTemporary htemp hat callers w).bind ?_
    rintro a f' w' ha ⟨hat', hslot, -⟩
    rw [hx _ _ _ ha] at hslot
    exact Frame.Runs.last hat'.single (Instr.does_printString hslot)
      ⟨rfl, hat'.ready.withRest _⟩

/-- The none value is evaluated and then printed as a text. -/
theorem Prints.unit (h : S.Stores env leftCode temp n₁ n₂ encode x)
    (htemp : Made n₀ n₁ temp) (hx : x.Yields (·.ty = .unit))
    (hprint : S.Prints env rightCode (Eval.write Literal.unit.printed)) :
    S.Prints env (leftCode ++ rightCode)
      (do let value ← x; Eval.write value.printed) where
  runs {f k} hat callers w := by
    refine (h.toTemporary htemp hat callers w).bind ?_
    rintro a f' w' ha ⟨hat', -, -⟩
    have hunit : a = .unit := by
      have hty := hx _ _ _ ha
      cases a with
      | unit => rfl
      | int | str | bool => cases hty
    rw [hunit]
    exact hprint.runs hat' callers w'

/-! ## Statements -/

theorem Performs.nil : S.Performs env [] (pure (.next env)) :=
  ⟨fun hat _ _ => Frame.Runs.pure ⟨hat.rest, hat.ready⟩⟩

theorem Performs.nop : S.Performs env [.nop] (pure (.next env)) :=
  ⟨fun hat _ _ => Frame.Runs.last hat.single Instr.does_nop
    ⟨rfl, hat.ready.withRest _⟩⟩

/-- **One piece is performed after the other**, unless the first one returns.
-/
theorem Performs.append {u : Eval Flow} {v : Env → Eval Flow}
    (hu : S.Performs env leftCode u)
    (hv : ∀ env', (∃ w w', u w = .ok (.next env') w') →
      S.Performs env' rightCode (v env')) :
    S.Performs env (leftCode ++ rightCode) (do
      match ← u with
      | .next env => v env
      | .returned value => return .returned value) where
  runs {f k} hat callers w := by
    refine (hu.runs hat.append callers w).bind ?_
    rintro flow f' w' hflow hcomes
    cases flow with
    | next env' =>
      exact (hv env' ⟨w, w', hflow⟩).runs
        (hat.append.goOn hcomes.2 hcomes.1) callers w'
    | returned value => exact Frame.Runs.pure hcomes

/-- **A variable is changed** to a value that is stored in its place. -/
theorem Performs.assign {name : Ident}
    (h : S.Stores env code name lo hi Literal.encode x) :
    S.Performs env code
      (do let value ← x; return .next (env.set name value)) where
  runs {f k} hat callers w := by
    refine (h.runs hat callers w).bind ?_
    rintro v f' w' - ⟨hrest, hslot, hkeeps⟩
    exact Frame.Runs.pure ⟨hrest, hat.ready.keeps_set hkeeps hslot⟩

/-- **An update**: the variable is read before the operand is evaluated. -/
theorem Performs.update {op : ArithOp} {name : Ident} {current : Slot}
    {n₃ : Nat} {x : Act Literal} (hcalls : S.Serves p calls)
    (hname : Ident.Plain name) (hty : ∀ v, env name = some v → v.ty = .int)
    (h : S.Puts p.signature? env code temp n₂ n₃ .int Literal.encode x)
    (hcurrent : Made n₀ n₁ current) (htemp : Made n₁ n₂ temp) :
    S.Performs env ([.move current name] ++ code
      ++ [.arith op name current temp]) (do
        let current ← env.read S.routine.name name
        let value ← x.run calls
        let value ← op.apply S.routine.name current value
        return .next (env.set name value)) := by
  have hmove : S.Puts p.signature? env [.move current name] current n₁ n₁
      .int Literal.encode (.ofEval (env.read S.routine.name name)) :=
    Puts.variable hname (Nat.le_refl n₁) hty
  -- the same code as for an operation on the variable and the operand
  have harith : S.Puts p.signature? env ([.move current name] ++ code
      ++ [.arith op name current temp]) name n₀ n₃ .int Literal.encode _ :=
    hmove.arith h hcurrent htemp
  have hperforms := Performs.assign (harith.stores hcalls)
  simp only [Act.run_bind, (env.isWorldless_read _ _).run_ofEval,
    (op.isWorldless_apply _ _ _).run_ofEval, bind_assoc] at hperforms
  exact hperforms

theorem Performs.print {u : Eval Unit} (h : S.Prints env code u) :
    S.Performs env code (do u; return .next env) where
  runs {f k} hat callers w := by
    refine (h.runs hat callers w).bind ?_
    rintro _ f' w' - hready
    exact Frame.Runs.pure hready

/-- **A return** sets the result and goes to the exit. -/
theorem Performs.ret (h : S.Stores env code temp n₁ n₂ Literal.encode x)
    (htemp : Made n₀ n₁ temp) :
    S.Performs env (code ++ [.setResult temp, .jump S.site.exit])
      (do let value ← x; return .returned value) where
  runs {f k} hat callers w := by
    refine (h.toTemporary htemp hat callers w).bind ?_
    rintro v f' w' - ⟨hat', hslot, -⟩
    refine Frame.Runs.step_le hat'.cons (Instr.does_setResult hslot) ?_
    exact Frame.Runs.last rfl
      (Instr.does_jump (hat'.ready.atLabel? S.exit)) ⟨rfl, rfl⟩

/-- A return from a procedure hands the none value back. -/
theorem Performs.retUnit :
    S.Performs env [.set temp 0, .setResult temp, .jump S.site.exit]
      (pure (.returned .unit)) where
  runs {f k} hat callers w := by
    refine Frame.Runs.step_le hat.cons (Instr.does_set temp 0) ?_
    refine Frame.Runs.step_le rfl
      (Instr.does_setResult (Store.get?_set_self _ _ _)) ?_
    exact Frame.Runs.last rfl
      (Instr.does_jump (hat.ready.atLabel? S.exit)) ⟨rfl, rfl⟩

/-- **A call of a procedure**, whose result is not fetched. -/
theorem Performs.call {temps : List Slot} {xs : Act (List Literal)}
    {callee : Ident} {sig : Signature}
    (hxs : S.Gathers p.signature? env code temps lo hi sig.params xs)
    (hcalls : S.Serves p calls) (hsig : p.signature? callee = some sig) :
    S.Performs env (code ++ setArguments 0 temps ++ [.call callee]) (do
      let values ← xs.run calls
      let _ ← calls callee values
      return .next env) where
  runs {f k} hat callers w := by
    rw [← bind_assoc]
    refine Frame.Runs.bind (hxs.runs_call hcalls hsig hat callers w) ?_
    rintro v f' w' - hat'
    exact Frame.Runs.pure ⟨hat'.rest, hat'.ready⟩

/-- **A choice** between two blocks. -/
theorem Performs.ifElse {thenLabel elseLabel done : Label}
    {condCode thenCode elseCode : Code} {y z : Eval Flow}
    (hcond : S.Branches env condCode thenLabel elseLabel lo hi x)
    (hthen : S.Performs env thenCode y)
    (helse : S.Performs env elseCode z) :
    S.Performs env (condCode ++ [.label thenLabel] ++ thenCode
      ++ [.jump done, .label elseLabel] ++ elseCode ++ [.label done]) (do
        let value ← x
        if ← value.asBool then y else z) where
  runs {f k} hat callers w := by
    -- the piece, divided at each of its labels
    have hatThen : S.At env (condCode ++ .label thenLabel :: (thenCode
        ++ .jump done :: .label elseLabel :: (elseCode ++ [.label done]))) k
        f := by simpa using hat
    have hatElse : S.At env ((condCode ++ .label thenLabel :: (thenCode
        ++ [.jump done])) ++ .label elseLabel :: (elseCode ++ [.label done])) k
        f := by simpa using hat
    have hatDone : S.At env ((condCode ++ .label thenLabel :: (thenCode
        ++ .jump done :: .label elseLabel :: elseCode)) ++ .label done :: []) k
        f := by simpa using hat
    refine (hcond.runs hatThen.mem_labels hatElse.mem_labels hatThen.append
      callers w).bind ?_
    rintro a f₁ w₁ - ⟨b, rfl, hlabel, hkeeps⟩
    have hready := hat.ready_of_made hkeeps
    cases b with
    | true =>
      refine hatThen.runs_label hready hlabel fun hat₁ => ?_
      refine Frame.Runs.andThen (hthen.runs hat₁.append callers w₁) ?_
      rintro flow f₂ w₂ - hcomes
      cases flow with
      | returned v => exact Frame.Runs.pure hcomes
      | next env' =>
        refine Frame.Runs.step_le hcomes.1
          (Instr.does_jump (hcomes.2.atLabel? hatDone.found)) ?_
        exact Frame.Runs.last rfl (Instr.does_label done)
          ⟨rfl, (hcomes.2.withRest _).withRest _⟩
    | false =>
      refine hatElse.runs_label hready hlabel fun hat₁ => ?_
      refine Frame.Runs.andThen (helse.runs hat₁.append callers w₁) ?_
      rintro flow f₂ w₂ - hcomes
      cases flow with
      | returned v => exact Frame.Runs.pure hcomes
      | next env' =>
        exact Frame.Runs.last hcomes.1 (Instr.does_label done)
          ⟨rfl, hcomes.2.withRest _⟩

/-- A loop from its beginning on, with as much fuel as the run is followed.
The condition and the body may take longer, but not for less. -/
theorem runs_loop {again start done : Label} {condCode bodyCode : Code}
    {fits : Env → Prop} {cond : Env → Eval Literal} {once : Env → Eval Flow}
    (hcond : ∀ env, fits env →
      S.Branches env condCode start done lo hi (cond env))
    (honce : ∀ env, fits env → S.Performs env bodyCode (once env))
    (hkeep : ∀ env, fits env →
      (once env).Yields fun flow => ∀ env', flow = .next env' → fits env')
    {n : Nat} (hn : n ≤ S.bound) {env : Env} (henv : fits env) {f : Frame}
    {k : Code} (hat : S.At env (.label again :: (condCode
      ++ .label start :: (bodyCode ++ [.jump again, .label done]))) k f)
    (callers : List Frame) (w : World) :
    f.Runs S.program S.room n callers w (S.Comes k)
      (loop (fun env => do let value ← cond env; value.asBool) once n env
        w) := by
  induction n generalizing env f w with
  | zero => exact Frame.Runs.outOfFuel
  | succ n ih =>
    have hn' : n ≤ S.bound := Nat.le_of_succ_le hn
    -- the piece, divided at each of its labels
    have hatAgain : S.At env ([] ++ .label again :: (condCode
        ++ .label start :: (bodyCode ++ [.jump again, .label done]))) k f :=
      hat
    have hatStart : S.At env ((.label again :: condCode) ++ .label start
        :: (bodyCode ++ [.jump again, .label done])) k f := by simpa using hat
    have hatDone : S.At env ((.label again :: (condCode ++ .label start
        :: (bodyCode ++ [.jump again]))) ++ .label done :: []) k f := by
      simpa using hat
    have hatOne : S.At env ([.label again] ++ (condCode ++ .label start
        :: (bodyCode ++ [.jump again, .label done]))) k f := hat
    -- the label at the beginning is the step that one unit of fuel stands for
    rw [loop, bind_assoc]
    refine Frame.Runs.step hat.cons (Instr.does_label again) ?_
    have hat₀ := hatOne.append.goOn (hat.ready.withRest _) rfl
    refine Frame.Runs.bind ((((hcond env henv).runs hatStart.mem_labels
      hatDone.mem_labels hat₀.append callers w).mono hn' fun _ _ => id)) ?_
    rintro a f₁ w₁ - ⟨b, rfl, hlabel, hkeeps⟩
    have hready := hat₀.ready_of_made hkeeps
    cases b with
    | false =>
      refine hatDone.runs_label hready hlabel fun hat₁ => ?_
      exact Frame.Runs.pure ⟨rfl, hat₁.ready⟩
    | true =>
      refine hatStart.runs_label hready hlabel fun hat₁ => ?_
      show Frame.Runs S.program S.room n callers _ w₁ _ ((do
        match ← once env with
        | .next env =>
          loop (fun env => do let value ← cond env; value.asBool) once n env
        | .returned value => return .returned value) w₁)
      have honce₁ := (honce env henv).runs hat₁.append callers w₁
      refine Frame.Runs.bind (honce₁.mono hn' fun _ _ => id) ?_
      rintro flow f₂ w₂ hflow hcomes
      cases flow with
      | returned v => exact Frame.Runs.pure hcomes
      | next env' =>
        have hat₂ := hat₁.append.goOn hcomes.2 hcomes.1
        refine Frame.Runs.step_le hat₂.cons
          (Instr.does_jump (hat₂.ready.atLabel? hatAgain.found)) ?_
        exact ih hn' (hkeep env henv _ _ _ hflow env' rfl)
          ⟨(hat₂.ready.withRest _).withRest _, rfl, hat.inside⟩ w₂

/-- **A loop.** -/
theorem Performs.whileLoop {again start done : Label}
    {condCode bodyCode : Code} {fits : Env → Prop}
    {cond : Env → Eval Literal} {once : Env → Eval Flow}
    (hcond : ∀ env, fits env →
      S.Branches env condCode start done lo hi (cond env))
    (honce : ∀ env, fits env → S.Performs env bodyCode (once env))
    (hkeep : ∀ env, fits env →
      (once env).Yields fun flow => ∀ env', flow = .next env' → fits env')
    (henv : fits env) :
    S.Performs env ([.label again] ++ condCode ++ [.label start] ++ bodyCode
      ++ [.jump again, .label done])
      (loop (fun env => do let value ← cond env; value.asBool) once S.bound
        env) where
  runs {f k} hat callers w := by
    have hloop : S.At env (.label again :: (condCode ++ .label start
        :: (bodyCode ++ [.jump again, .label done]))) k f := by simpa using hat
    exact runs_loop hcond honce hkeep (Nat.le_refl _) henv hloop callers w

end Setting

/-! ## Emitted code -/

section Printing

variable {S : Setting} {p : Program Judged} {calls : Calls} {Γ : Context}
  {env : Env} {t t' : SymbolTable} {code : Code}

open Setting

theorem Site.EmitsText.prints {constant : Label} {text : String}
    (h : S.site.EmitsText constant t code t')
    (htext : S.program.symbols.constant? constant = some text) :
    S.Prints env code (Eval.write text) := by
  cases h with
  | mk htemp => exact Prints.text (made_freshTemporary htemp) htext

/-- The code that writes a value writes it as it is printed. -/
theorem Expr.EmitsPrint.prints (hcalls : S.Serves p calls)
    (henv : env.Fits p S.routine.name Γ)
    (hplain : ∀ b ∈ Γ, Ident.Plain b.1) {arg : Expr Judged} {ty : Ty}
    (h : arg.EmitsPrint S.site t code t')
    (hw : Window S.program.symbols t t')
    (hty : arg.HasType p.signature? Γ ty) :
    S.Prints env code (arg.print calls S.routine.name env) := by
  have hyields := (hty.safe_eval hcalls.safe henv).yields
  cases h with
  | int htya htemp harg =>
    obtain rfl := hty.ty_eq.symm.trans htya
    exact Prints.int (harg.evaluates hcalls henv hplain
      (hw.later (Grows.temporary htemp)) hty trivial)
      (made_freshTemporary htemp) hyields
  | str htya htemp harg =>
    obtain rfl := hty.ty_eq.symm.trans htya
    refine Prints.str (harg.evaluates hcalls henv hplain
      (hw.later (Grows.temporary htemp)) hty trivial)
      (made_freshTemporary htemp) fun w v w' hv => ?_
    obtain ⟨text, rfl⟩ := Literal.eq_str (hyields w v w' hv)
    rfl
  | bool htya htemp hchoice =>
    obtain rfl := hty.ty_eq.symm.trans htya
    exact Prints.str (hchoice.stores hcalls henv hplain
      (hw.later (Grows.temporary htemp)) hty (fun v => .str v.printed)
      (fun _ _ => Instr.does_loadString S.constants.yes)
      (fun _ _ => Instr.does_loadString S.constants.no))
      (made_freshTemporary htemp) fun _ _ _ _ => rfl
  | unit htya hunused harg hprint =>
    obtain rfl := hty.ty_eq.symm.trans htya
    obtain ⟨wa, -⟩ := (hw.later (Grows.temporary hunused)).halves
      harg.takes.grows hprint.takes.grows
    exact Prints.unit (harg.evaluates hcalls henv hplain wa hty trivial)
      (made_freshTemporary hunused) hyields
      (hprint.prints S.constants.unit)

/-- The code that writes more values writes them, each after a blank. -/
theorem Site.EmitsMore.prints (hcalls : S.Serves p calls)
    (henv : env.Fits p S.routine.name Γ)
    (hplain : ∀ b ∈ Γ, Ident.Plain b.1) {args : List (Expr Judged)}
    {tys : List Ty} (h : S.site.EmitsMore args t code t')
    (hw : Window S.program.symbols t t')
    (hty : Expr.HaveTypes p.signature? Γ args tys) :
    S.Prints env code (Expr.printMore calls S.routine.name env args) := by
  induction h generalizing tys with
  | nil => exact Prints.nil
  | cons hspace harg hargs ih =>
    cases hty with
    | cons hta htas =>
      obtain ⟨wa, was⟩ := (hw.later hspace.takes.grows).halves
        harg.takes.grows hargs.takes.grows
      rw [List.append_assoc]
      exact (hspace.prints S.constants.space).append
        ((harg.prints hcalls henv hplain wa hta).append (ih was htas))

/-- The code that writes values writes them with a blank between two. -/
theorem Site.EmitsLine.prints (hcalls : S.Serves p calls)
    (henv : env.Fits p S.routine.name Γ)
    (hplain : ∀ b ∈ Γ, Ident.Plain b.1) {args : List (Expr Judged)}
    {tys : List Ty} (h : S.site.EmitsLine args t code t')
    (hw : Window S.program.symbols t t')
    (hty : Expr.HaveTypes p.signature? Γ args tys) :
    S.Prints env code (Expr.printAll calls S.routine.name env args) := by
  cases h with
  | nil => exact Prints.nil
  | cons harg hargs =>
    cases hty with
    | cons hta htas =>
      obtain ⟨wa, was⟩ := hw.halves harg.takes.grows hargs.takes.grows
      exact (harg.prints hcalls henv hplain wa hta).append
        (hargs.prints hcalls henv hplain was htas)

end Printing

namespace Stmt

variable {S : Setting} {p : Program Judged} {calls : Calls} {Γf : Context}
  {expected : Option Ty}

open Setting

mutual

/-- **The code of a statement does what the statement does.** -/
theorem Emits.performs (hcalls : S.Serves p calls)
    (hΓf : Γf.IsFunctional) (hplain : ∀ b ∈ Γf, Ident.Plain b.1)
    {stmt : Stmt Judged} {t t' : SymbolTable} {code : Code}
    (h : stmt.Emits S.site t code t')
    (hw : Window S.program.symbols t t') {Γ Γ' : Context}
    {returns : Returns}
    (heffect : stmt.HasEffect p.signature? expected Γ Γ' returns)
    (hsub : Γ' ⊆ Γf) {env : Env} (henv : env.Fits p S.routine.name Γf) :
    S.Performs env code
      (stmt.exec calls S.routine.name S.bound env) := by
  have hΓ : Γ ⊆ Γf := List.Subset.trans heffect.context.1 hsub
  have hfits : env.Fits p S.routine.name Γ := henv.mono hΓ
  have hnames : ∀ b ∈ Γ, Ident.Plain b.1 := fun b hb => hplain b (hΓ hb)
  match h with
  | .introduce hinit =>
    cases heffect with
    | introduce htinit =>
      exact Performs.assign
        (hinit.evaluates hcalls hfits hnames hw htinit trivial)
  | .assign hvalue =>
    cases heffect with
    | assign _ htvalue =>
      exact Performs.assign
        (hvalue.evaluates hcalls hfits hnames hw htvalue trivial)
  | .update hcurrent htemp hoperand =>
    cases heffect with
    | update hname htoperand =>
      have gcurrent := Grows.temporary hcurrent
      have wo := hw.later (gcurrent.trans (Grows.temporary htemp))
      rw [exec, ← Expr.run_act]
      exact Performs.update hcalls (hnames _ hname)
        (hfits.isTyped _ _ hname)
        (hoperand.meets hfits.isTyped hnames wo htoperand trivial)
        (made_freshTemporary hcurrent) (made_freshTemporary htemp)
  | .pass => exact Performs.nop
  | .print hargs hnewline =>
    cases heffect with
    | print htargs =>
      obtain ⟨wa, -⟩ := hw.halves hargs.takes.grows hnewline.takes.grows
      have hprints := (hargs.prints hcalls hfits hnames wa htargs).append
        (hnewline.prints S.constants.newline)
      have hperforms := Performs.print hprints
      rw [bind_assoc] at hperforms
      exact hperforms
  | .ret htemp hvalue =>
    cases heffect with
    | ret _ htvalue =>
      exact Performs.ret (hvalue.evaluates hcalls hfits hnames
        (hw.later (Grows.temporary htemp)) htvalue trivial)
        (made_freshTemporary htemp)
  | .retUnit _ => exact Performs.retUnit
  | .call hargs =>
    cases heffect with
    | call hsig htargs =>
      rw [exec, ← Expr.run_actArgs]
      exact Performs.call (hargs.gathers hfits.isTyped hnames hw htargs)
        hcalls hsig
  | .ifElse hthenLabel helseLabel hdone hcond hthen helse =>
    cases heffect with
    | ifElse htcond hethen heelse =>
      have hlabels := Takes.labels (by simp) hthenLabel helseLabel hdone
      obtain ⟨wc, wb⟩ := (hw.later hlabels.grows).halves hcond.takes.grows
        (hthen.takes.grows.trans helse.takes.grows)
      obtain ⟨wt, we⟩ := wb.halves hthen.takes.grows helse.takes.grows
      exact Performs.ifElse
        (hcond.evaluates hcalls hfits hnames wc htcond rfl)
        (hthen.performs hcalls hΓf hplain wt hethen
          (List.Subset.trans heelse.context.1 hsub) henv)
        (helse.performs hcalls hΓf hplain we heelse hsub henv)
  | .whileLoop hagain hstart hdone hcond hbody =>
    cases heffect with
    | whileLoop htcond hebody =>
      have hlabels := Takes.labels (by simp) hagain hstart hdone
      obtain ⟨wc, wb⟩ := (hw.later hlabels.grows).halves hcond.takes.grows
        hbody.takes.grows
      -- the body is executed in any environment that fits, not in this one only
      refine Performs.whileLoop
        (fun env henv => hcond.evaluates hcalls (henv.mono hΓ) hnames wc
          htcond rfl)
        (fun env henv => hbody.performs hcalls hΓf hplain wb hebody hsub henv)
        (fun env henv => ?_) henv
      intro w flow w' hflow env' heq
      have hnext := (hebody.safe_execAll hcalls.safe hΓf hsub henv
        Returns.goesOn_never).yields w flow w' hflow
      rw [heq] at hnext
      exact hnext.1

/-- **The code of statements does what they do.** -/
theorem EmitsAll.performs (hcalls : S.Serves p calls)
    (hΓf : Γf.IsFunctional) (hplain : ∀ b ∈ Γf, Ident.Plain b.1)
    {stmts : List (Stmt Judged)} {t t' : SymbolTable} {code : Code}
    (h : EmitsAll S.site stmts t code t')
    (hw : Window S.program.symbols t t') {Γ Γ' : Context}
    {before returns : Returns}
    (heffect : HaveEffect p.signature? expected Γ before stmts Γ' returns)
    (hsub : Γ' ⊆ Γf) {env : Env} (henv : env.Fits p S.routine.name Γf) :
    S.Performs env code
      (execAll calls S.routine.name S.bound stmts env) := by
  match h with
  | .nil => exact Performs.nil
  | .cons hstmt hstmts =>
    cases heffect with
    | cons hefirst _ herest =>
      obtain ⟨wf, wr⟩ := hw.halves hstmt.takes.grows hstmts.takes.grows
      have hmid := List.Subset.trans herest.context.1 hsub
      refine Performs.append
        (hstmt.performs hcalls hΓf hplain wf hefirst hmid henv) ?_
      rintro env' ⟨w, w', hnext⟩
      have hflow := (hefirst.safe_exec hcalls.safe hΓf hmid henv).yields w _
        w' hnext
      exact hstmts.performs hcalls hΓf hplain wr herest hsub hflow.1

end

end Stmt

end Primer
