import Primer.Proofs.Semantics.Erasure
import Primer.Proofs.Simulation.Statements

/-!
# Code for programs does what they mean

A routine starts at its entry, executes the code of its body and comes to its
end with the result set (`Routine.Implements.runs`). From this it follows by
induction on the fuel that calls do what the evaluator says
(`Assembly.Implements.realizes_call`): the callee has less fuel, and the call
itself is the step that is gained.

Compilation makes such a program of every tree whose names are plain
(`Program.exists_implements`).
-/

namespace Primer

open SymbolTable

variable {α : Type}

/-! ## Names and memory -/

/-- **The names of a program are plain**: those of its definitions, of their
parameters and of the variables that it introduces. -/
structure Program.HasPlainNames (p : Program α) : Prop where
  /-- The names of definitions. -/
  definitions : ∀ d ∈ p.definitions, Ident.Plain d.name
  /-- The names of parameters. -/
  parameters : ∀ d ∈ p.definitions, ∀ b ∈ d.params, Ident.Plain b.1
  /-- The names of variables. -/
  introduced : ∀ d ∈ p.bodies, ∀ name ∈ Stmt.introducedAll d.body.stmts,
    Ident.Plain name

/-- **A program fits into memory** if there is room for the arguments of its
calls. A definition takes more room than a call of it, so this is so of every
program that is in memory. -/
def Program.FitsMemory (p : Program α) : Prop :=
  ∀ d ∈ p.definitions, d.params.length ≤ argumentRoom

namespace Stmt

mutual

/-- A statement introduces the same variables without types. -/
theorem introduced_erase (stmt : Stmt Judged) :
    stmt.erase.introduced = stmt.introduced := by
  match stmt with
  | .introduce _ _ _ _ | .assign _ _ _ | .update _ _ _ _ | .pass _
  | .print _ _ | .ret _ _ | .retUnit _ | .call _ _ _ => rfl
  | .ifElse _ _ ⟨thenStmts, _⟩ ⟨elseStmts, _⟩ =>
    rw [erase, introduced, introducedAll_erase thenStmts,
      introducedAll_erase elseStmts, introduced]
  | .whileLoop _ _ ⟨stmts, _⟩ =>
    rw [erase, introduced, introducedAll_erase stmts, introduced]

/-- Statements introduce the same variables without types. -/
theorem introducedAll_erase (stmts : List (Stmt Judged)) :
    introducedAll (eraseAll stmts) = introducedAll stmts := by
  match stmts with
  | [] => rfl
  | stmt :: stmts =>
    rw [eraseAll, introducedAll, introduced_erase stmt,
      introducedAll_erase stmts, introducedAll]

end

end Stmt

/-- Names with types are plain if they are without. -/
theorem Program.HasPlainNames.of_erase {p : Program Judged}
    (h : p.erase.HasPlainNames) : p.HasPlainNames where
  definitions d hd := h.definitions d.erase (List.mem_map_of_mem hd)
  parameters d hd := h.parameters d.erase (List.mem_map_of_mem hd)
  introduced d hd name hname := by
    refine h.introduced d.erase ?_ name ?_
    · rw [Program.bodies_erase]
      exact List.mem_map_of_mem hd
    · exact (Stmt.introducedAll_erase d.body.stmts).symm ▸ hname

theorem Program.fitsMemory_erase (p : Program Judged) :
    p.erase.FitsMemory ↔ p.FitsMemory := List.forall_mem_map

theorem Program.FitsMemory.length_le {p : Program α} (h : p.FitsMemory)
    {callee : Ident} {sig : Signature} (hsig : p.signature? callee = some sig) :
    sig.params.length ≤ argumentRoom := by
  obtain ⟨d, hd, rfl⟩ := Option.map_eq_some_iff.mp hsig
  have hle := h d (List.mem_of_find?_eq_some hd)
  exact (List.length_map (α := _) Prod.snd).symm ▸ hle

/-! ## Routines -/

/-- Parameters that hold arguments represent the environment of a call. -/
theorem foldl_set_encode (names : List Ident) (args : List Literal)
    {slots : Store Slot} {env : Env}
    (h : ∀ x, slots.get? x = (env x).map Literal.encode) (x : Ident) :
    ((names.zip (args.map Literal.encode)).foldl
        (fun slots arg => slots.set arg.1 arg.2) slots).get? x
      = ((names.zip args).foldl (fun env b => env.set b.1 b.2) env x).map
        Literal.encode := by
  induction names generalizing args slots env with
  | nil => exact h x
  | cons name names ih =>
    cases args with
    | nil => exact h x
    | cons arg args =>
      refine ih args fun y => ?_
      show (slots.set name arg.encode).get? y
        = ((env.set name arg) y).map Literal.encode
      unfold Env.set
      split
      · next heq =>
        rw [heq, Store.get?_set_self]
        rfl
      · next hne => rw [Store.get?_set_of_ne _ _ (Ne.symm hne), h y]

/-- **The frame of a call represents the environment** that it starts with. -/
theorem Frame.ready_enter {r : Routine} {params : List (Ident × Ty)}
    (hparams : r.prototype.params = params) (args : List Literal) :
    (Frame.enter r (args.map Literal.encode)).Ready r
      (.enter (params.map Prod.fst) args) where
  routine := rfl
  arguments := rfl
  slots x _ := by
    subst hparams
    exact foldl_set_encode _ args (fun _ => rfl) x

/-- **A routine executes its body**, from its entry to its end, and has set
the result there if the body has returned. -/
theorem Routine.Implements.runs {a : Assembly} {p : Program Judged}
    {calls : Calls} {constants : Constants} {room : Prop} {bound : Nat}
    {r : Routine} {d : Definition Judged}
    (h : r.Implements a.symbols constants d)
    (hconstants : constants.Mean a.symbols)
    (hdistinct : r.code.labels.Nodup) (hsafe : calls.AreSafe p)
    (hroom : room → ∀ callee sig, p.signature? callee = some sig →
      sig.params.length ≤ argumentRoom)
    (hcalls : calls.AreRealized a room bound p.signature?)
    {expected : Option Ty} {Γ Γf : Context} {returns : Returns}
    (heffect : Stmt.HaveEffect p.signature? expected Γ .never d.body.stmts Γf
      returns)
    (hΓf : Γf.IsFunctional) (hplain : ∀ b ∈ Γf, Ident.Plain b.1) {env : Env}
    (henv : env.Fits p d.name Γf) {f : Frame} (hready : f.Ready r env)
    (hrest : f.rest = r.code) (callers : List Frame) (w : World) :
    f.Runs a room bound callers w (fun flow f' => f'.rest = [.leave]
        ∧ ∀ v, flow = .returned v → f'.result = some v.encode)
      (Stmt.execAll calls d.name bound d.body.stmts env w) := by
  obtain ⟨site, code, t, t', hsite, hcode, hemits, hw⟩ := h.body
  have hexit : r.code.atLabel? site.exit
      = some [.label site.exit, .leave] := by
    have hsplit : r.code = (Instr.label r.name :: .enter :: code)
        ++ .label site.exit :: [.leave] := hcode
    rw [hsplit] at hdistinct ⊢
    exact Code.atLabel?_append hdistinct
  let S : Setting := {
    program := a
    routine := r
    site := site
    room := room
    bound := bound
    distinct := hdistinct
    exit := hexit
    constants := hsite ▸ hconstants }
  have hserves : S.Serves p calls := ⟨hsafe, hroom, hcalls⟩
  rw [← h.name] at henv ⊢
  have hperforms : S.Performs env code
      (Stmt.execAll calls r.name bound d.body.stmts env) :=
    hemits.performs hserves hΓf hplain hw heffect (List.Subset.refl _) henv
  refine Frame.Runs.step_le (hrest.trans hcode) (Instr.does_label r.name) ?_
  refine Frame.Runs.step_le rfl Instr.does_enter ?_
  refine Frame.Runs.andThen (hperforms.runs
    ⟨(hready.withRest _).withRest _, rfl, ?_⟩ callers w) ?_
  · show code ++ [.label site.exit, .leave] <:+ r.code
    rw [hcode]
    exact List.suffix_append [Instr.label r.name, .enter] _
  · rintro flow f' w' - hcomes
    have hend : f'.rest = [.label site.exit, .leave]
        ∧ ∀ v, flow = .returned v → f'.result = some v.encode := by
      cases flow with
      | next env' => exact ⟨hcomes.1, nofun⟩
      | returned v =>
        refine ⟨hcomes.1, fun v' hv' => ?_⟩
        cases hv'
        exact hcomes.2
    exact Frame.Runs.last hend.1 (Instr.does_label _) ⟨rfl, hend.2⟩

/-! ## Programs -/

/-- **An assembled program implements a checked one**, whose names are plain:
every name means a routine that implements what the name means in the tree.
-/
structure Assembly.Implements (a : Assembly) (c : Constants)
    (p : Program Judged) : Prop where
  /-- The tree is well typed. -/
  wellTyped : p.WellTyped
  /-- Its names are plain. -/
  plain : p.HasPlainNames
  /-- No label is defined twice. -/
  distinct : ∀ r ∈ a.bodies, r.code.labels.Nodup
  /-- The texts that any code may print are named. -/
  constants : c.Mean a.symbols
  /-- Routines implement definitions. -/
  routines : ∀ callee d, p.definitions.find? (·.name == callee) = some d →
    ∃ r, a.routine? callee = some r ∧ r.Implements a.symbols c d
  /-- The main routine implements the main script. -/
  main : a.main.Implements a.symbols c p.script

namespace Assembly.Implements

variable {a : Assembly} {c : Constants} {p : Program Judged}

/-- **A routine that is called does what its definition does**, if calls do
what the evaluator says, and has set the result at its end. -/
theorem runs_routine (h : a.Implements c p) {fuel : Nat}
    (hcalls : (p.call fuel).AreRealized a p.FitsMemory fuel p.signature?)
    {callee : Ident} {d : Definition Judged} {r : Routine}
    (hd : p.definitions.find? (·.name == callee) = some d)
    (hroutine : a.routine? callee = some r)
    (hr : r.Implements a.symbols c d) {args : List Literal}
    (htys : args.map Literal.ty = d.params.map Prod.snd)
    (callers : List Frame) (w : World) :
    (Frame.enter r (args.map Literal.encode)).Runs a p.FitsMemory fuel callers
      w (fun v f' => f'.rest = [.leave] ∧ f'.result = some v.encode)
      (d.exec (p.call fuel) fuel args w) := by
  have hmem := List.mem_of_find?_eq_some hd
  have hbody : d ∈ p.bodies := List.mem_append_left _ hmem
  have hbodies : r ∈ a.bodies :=
    List.mem_append_left _ (List.mem_of_find?_eq_some hroutine)
  obtain ⟨Γ, heffect, hΓ, henv, hnames⟩ :=
    (h.wellTyped.definitions d hmem).exists_fits hbody htys
  have hplain : ∀ b ∈ Γ, Ident.Plain b.1 := fun b hb =>
    (hnames b hb).elim (h.plain.parameters d hmem b)
      (h.plain.introduced d hbody b.1)
  have hlength : args.length = d.params.length := by
    simpa using congrArg List.length htys
  unfold Definition.exec
  rw [if_pos hlength]
  have hready := Frame.ready_enter hr.params args
  refine Frame.Runs.bind (hr.runs h.constants (h.distinct r hbodies)
    (h.wellTyped.safe_call fuel) (fun hfits _ _ => hfits.length_le) hcalls
    heffect hΓ hplain henv hready rfl callers w) ?_
  rintro flow f' w' hflow ⟨hleave, hresult⟩
  have hsafe := (heffect.safe_execAll (h.wellTyped.safe_call fuel) hΓ
    (List.Subset.refl _) henv Returns.goesOn_never).yields w flow w' hflow
  -- a body of the declared type does not come to its end without returning
  cases flow with
  | next env => exact absurd rfl (hsafe.2 d.ret)
  | returned v => exact Frame.Runs.pure ⟨hleave, hresult v rfl⟩

/-- **Calls do what the evaluator says**, for as long as there is fuel. -/
theorem realizes_call (h : a.Implements c p) (fuel : Nat) :
    (p.call fuel).AreRealized a p.FitsMemory fuel p.signature? := by
  induction fuel with
  | zero => exact fun _ _ _ _ _ _ _ _ _ _ _ => Frame.Runs.outOfFuel
  | succ fuel ih =>
    -- the call is one step more than the callee is followed for
    intro callee sig args hsig htys f k hrest harguments callers w
    obtain ⟨d, hd, rfl⟩ := Option.map_eq_some_iff.mp hsig
    obtain ⟨r, hroutine, hr⟩ := h.routines callee d hd
    have hlength : args.length = d.params.length := by
      simpa [Definition.signature] using congrArg List.length htys
    have hcall : p.call (fuel + 1) callee args
        = d.exec (p.call fuel) fuel args := by rw [Program.call, hd]
    rw [hcall]
    refine Frame.Runs.call hrest hroutine harguments ?_
      (h.runs_routine ih hd hroutine hr htys _ w)
    rw [List.length_map, hr.params, hlength]

/-- **The main routine does what the evaluator says**, for as long as there is
fuel. -/
theorem realizes_main (h : a.Implements c p) (fuel : Nat)
    (w : World) :
    (Frame.enter a.main []).Runs a p.FitsMemory fuel [] w
      (fun _ f' => f'.rest = [.leave]) (p.exec fuel w) := by
  obtain ⟨Γ, heffect, hΓ, henv, hnames⟩ := h.wellTyped.exists_fits
  have hbody : p.script ∈ p.bodies := List.mem_append_right _ (by simp)
  have hplain : ∀ b ∈ Γ, Ident.Plain b.1 := fun b hb =>
    h.plain.introduced p.script hbody b.1 (hnames b hb)
  have hbodies : a.main ∈ a.bodies := List.mem_append_right _ (by simp)
  have hready := Frame.ready_enter h.main.params []
  refine Frame.Runs.bind (h.main.runs h.constants (h.distinct _ hbodies)
    (h.wellTyped.safe_call fuel) (fun hfits _ _ => hfits.length_le)
    (h.realizes_call fuel) heffect hΓ hplain henv hready rfl [] w) ?_
  rintro flow f' w' hflow ⟨hleave, -⟩
  have hsafe := (heffect.safe_execAll (h.wellTyped.safe_call fuel) hΓ
    (List.Subset.refl _) henv Returns.goesOn_never).yields w flow w' hflow
  cases flow with
  | next env => exact Frame.Runs.pure hleave
  | returned v => cases hsafe

end Assembly.Implements

/-! ## Compilation -/

/-- The main script has a plain name, and the definitions have. -/
theorem Program.HasPlainNames.bodies {p : Program α} (h : p.HasPlainNames) :
    ∀ d ∈ p.bodies, Ident.Plain d.name := by
  intro d hd
  rcases List.mem_append.mp hd with hd | hd
  · exact h.definitions d hd
  · cases List.mem_singleton.mp hd
    show Ident.Plain Program.entryPoint
    decide

/-- The table of an emitted program is tidy. -/
theorem TypedProgram.Emits.tidy {typed : TypedProgram} {a : Assembly}
    {p : Program Span} (h : typed.Emits a) (hcheck : typed.IsCheckOf p)
    (hplain : p.HasPlainNames) : a.symbols.Tidy := by
  have hnames : typed.program.HasPlainNames :=
    .of_erase (hcheck.erase.symm ▸ hplain)
  cases h with
  | mk hconstants hbodies =>
    have hstart := (tidy_of_global_eq hcheck.global).grows
      (hconstants.grows .global)
    exact (hbodies.tidy hstart hnames.bodies).1

/-- **Emitted code implements the tree** that it was emitted for. -/
theorem TypedProgram.Emits.implements {typed : TypedProgram} {a : Assembly}
    {p : Program Span} (h : typed.Emits a) (hcheck : typed.IsCheckOf p)
    (hplain : p.HasPlainNames) :
    ∃ constants, a.Implements constants typed.program := by
  have hwell := h.wellFormed hcheck fun d hd =>
    (hplain.definitions d hd).2
  have hnames : typed.program.HasPlainNames :=
    .of_erase (hcheck.erase.symm ▸ hplain)
  cases h with
  | @mk constants t _ hconstants hbodies =>
  have htidy := tidy_of_global_eq hcheck.global
  have hstart : t.Tidy := htidy.grows (hconstants.grows .global)
  have hkeeps := (hbodies.tidy hstart hnames.bodies).2
  -- the main routine is emitted last
  obtain ⟨rs, main, t₁, hsplit, hdefinitions, hmain⟩ := hbodies.of_concat
  obtain ⟨rfl, hlast⟩ := List.append_inj' hsplit rfl
  obtain rfl := List.singleton_inj.mp hlast
  obtain ⟨htidy₁, -⟩ := hdefinitions.tidy hstart hnames.definitions
  have hscript : Ident.Plain typed.program.script.name :=
    hnames.bodies _ (List.mem_append_right _ (by simp))
  have hend := (Definition.Emits.tidy hmain htidy₁ hscript).2
  refine ⟨constants, hcheck.wellTyped, hnames, ?_,
    (hconstants.mean htidy).keeps hkeeps, fun callee d hd => ?_,
    Definition.Emits.implements hmain htidy₁ hscript fun _ _ => id⟩
  · exact fun r hr => (List.pairwise_flatMap.mp hwell.labels).1 r hr
  · exact hdefinitions.find?_implements hstart hnames.definitions hend hd

/-- **Compiled code implements a tree** that is the program with types. -/
theorem Program.exists_implements {p : Program Span} {a : Assembly}
    (h : p.compile = .ok a) (hplain : p.HasPlainNames) :
    ∃ constants typed, typed.erase = p ∧ a.Implements constants typed := by
  obtain ⟨typed, hcheck, hemit⟩ := compile_eq_ok.mp h
  have hsound := check_sound hcheck
  obtain ⟨constants, himplements⟩ :=
    (TypedProgram.emits_of_emit hemit).implements hsound hplain
  exact ⟨constants, typed.program, hsound.erase, himplements⟩

end Primer
