import Mathlib.Data.Set.Function
import Primer.Proofs.Emission.Success
import Primer.Proofs.Renaming.Machine
import Primer.Proofs.Semantics.Soundness

/-!
# Names do not matter

Compiling and running commute with faithful renamings. A faithful renaming is
one of all names there are, and it keeps those that are made up. What somebody
who renames the variables and definitions of a program has in hand is less:
different names for those that the program declares, and nothing said about
any other name.

That is enough if the program, under its old names and under its new ones,
leaves the made-up names alone (`Program.HasOwnNames`). Then some faithful
renaming does with the declared names what the given one does
(`Renaming.Admissible.exists_faithful`), and in a well typed program there are
no others, so that both make the same program of it
(`Program.WellTyped.rename_congr`).

If a name is taken from those that are made up, it may matter a great deal.
Nothing refuses such a name: a variable called like a temporary is overwritten
by it, and the program goes on with a wrong value.
-/

namespace Primer

variable {α : Type} {ν ν' : Names} {ρ ρ' : Renaming}

/-! ## Names that are declared -/

/-- **The variables of a definition**: its parameters and what it introduces.
-/
def Definition.declared (d : Definition α) : List Slot :=
  d.params.map Prod.fst ++ Stmt.introducedAll d.body.stmts

namespace Stmt

mutual

/-- A renamed statement introduces the renamed variables. -/
theorem introduced_rename (stmt : Stmt α) :
    (stmt.rename ν).introduced = stmt.introduced.map ν.slot := by
  match stmt with
  | .introduce _ _ _ _ | .assign _ _ _ | .update _ _ _ _ | .pass _
  | .print _ _ | .ret _ _ | .retUnit _ | .call _ _ _ => rfl
  | .ifElse _ _ ⟨thenStmts, _⟩ ⟨elseStmts, _⟩ =>
    rw [rename, introduced, introducedAll_rename thenStmts,
      introducedAll_rename elseStmts, introduced, List.map_append]
  | .whileLoop _ _ ⟨stmts, _⟩ =>
    rw [rename, introduced, introducedAll_rename stmts, introduced]

/-- Renamed statements introduce the renamed variables. -/
theorem introducedAll_rename (stmts : List (Stmt α)) :
    introducedAll (renameAll ν stmts) = (introducedAll stmts).map ν.slot := by
  match stmts with
  | [] => rfl
  | stmt :: stmts =>
    rw [renameAll, introducedAll, introduced_rename stmt,
      introducedAll_rename stmts, introducedAll, List.map_append]

end

end Stmt

/-- **The variables of a renamed definition** are the renamed ones. -/
theorem Definition.declared_rename (d : Definition α) :
    (d.rename ρ).declared = d.declared.map (ρ.slot d.name) := by
  unfold declared rename Block.rename
  rw [Stmt.introducedAll_rename, List.map_append, Names.params, List.map_map,
    List.map_map]
  rfl

namespace Program

theorem declared_script_rename (p : Program α) :
    (p.rename ρ).script.declared
      = p.script.declared.map (ρ.slot entryPoint) :=
  Stmt.introducedAll_rename p.main.stmts

/-- **The names of a program are its own** if they do not look as if they had
been made up: no definition is called like a label or a text, and no variable
like a temporary. -/
structure HasOwnNames (p : Program α) : Prop where
  /-- Those of the definitions. -/
  definitions : ∀ d ∈ p.definitions, ¬ d.name.BeginsWith '.'
  /-- Those of the variables, in each body. -/
  slots : ∀ d ∈ p.bodies, ∀ name ∈ d.declared,
    ¬ Ident.BeginsWith name '%'

end Program

/-- **A renaming is admissible** for a program if it gives different names to
different definitions, and to different variables of one body, and the name
of the main script to no definition. What it does with names that the program
does not declare is all the same. -/
structure Renaming.Admissible (ρ : Renaming) (p : Program α) : Prop where
  /-- Different definitions get different names. -/
  definitions : Set.InjOn ρ.routine
    {name | name ∈ p.definitions.map Definition.name}
  /-- No definition gets the name of the main script. -/
  entryPoint : ∀ d ∈ p.definitions, ρ.routine d.name ≠ Program.entryPoint
  /-- Different variables of one body get different names. -/
  slots : ∀ d ∈ p.bodies,
    Set.InjOn (ρ.slot d.name) {name | name ∈ d.declared}

/-! ## Renamings that agree -/

/-- **New names agree** on the variables of a context and on the names that
can be called. -/
structure Names.Agree (sigs : Signatures) (Γ : Context) (ν ν' : Names) :
    Prop where
  /-- On the variables. -/
  slot : ∀ b ∈ Γ, ν.slot b.1 = ν'.slot b.1
  /-- On the names that can be called. -/
  routine : ∀ callee, (sigs callee).isSome = true →
    ν.routine callee = ν'.routine callee

theorem Names.Agree.mono {sigs : Signatures} {Γ Γ' : Context}
    (h : Names.Agree sigs Γ' ν ν') (hΓ : Γ ⊆ Γ') : Names.Agree sigs Γ ν ν' :=
  ⟨fun b hb => h.slot b (hΓ hb), h.routine⟩

/-- **Renamings agree** on the names that a program declares. -/
structure Renaming.Agree (p : Program α) (ρ ρ' : Renaming) : Prop where
  /-- On the definitions. -/
  definitions : ∀ d ∈ p.definitions, ρ.routine d.name = ρ'.routine d.name
  /-- On the variables, in each body. -/
  slots : ∀ d ∈ p.bodies, ∀ name ∈ d.declared,
    ρ.slot d.name name = ρ'.slot d.name name

variable [Note α]

namespace Expr

variable {sigs : Signatures} {Γ : Context}

mutual

/-- **Names that agree make the same** of an expression that has a type. -/
theorem HasType.rename_congr {e : Expr α} {ty : Ty} (h : e.HasType sigs Γ ty)
    (hν : Names.Agree sigs Γ ν ν') : e.rename ν = e.rename ν' := by
  match h with
  | .lit _ => rfl
  | .var _ hname => exact congrArg (Expr.var _) (hν.slot _ hname)
  | .arith _ hlhs hrhs | .compare _ hlhs hrhs | .logic _ hlhs hrhs =>
    rw [rename, rename, hlhs.rename_congr hν, hrhs.rename_congr hν]
  | .not _ h | .input _ h | .convert _ _ h =>
    rw [rename, rename, h.rename_congr hν]
  | .call _ hsig hargs =>
    rw [rename, rename, hargs.rename_congr hν,
      hν.routine _ (hsig ▸ Option.isSome_some)]

theorem HaveTypes.rename_congr {es : List (Expr α)} {tys : List Ty}
    (h : HaveTypes sigs Γ es tys) (hν : Names.Agree sigs Γ ν ν') :
    renameAll ν es = renameAll ν' es := by
  match h with
  | .nil => rfl
  | .cons he hes =>
    rw [renameAll, renameAll, he.rename_congr hν, hes.rename_congr hν]

end

end Expr

namespace Stmt

variable {sigs : Signatures} {expected : Option Ty}

mutual

/-- **Names that agree make the same** of a statement that has an effect. They
have to agree on what is in sight after it. -/
theorem HasEffect.rename_congr {Γ Γ' : Context} {stmt : Stmt α}
    {returns : Returns} (h : stmt.HasEffect sigs expected Γ Γ' returns)
    (hν : Names.Agree sigs Γ' ν ν') : stmt.rename ν = stmt.rename ν' := by
  match h with
  | .introduce hinit _ =>
    rw [rename, rename, hν.slot _ (List.mem_cons_self ..),
      hinit.rename_congr (hν.mono (List.subset_cons_self _ _))]
  | .assign hname h | .update hname h =>
    rw [rename, rename, hν.slot _ hname, h.rename_congr hν]
  | .pass | .retUnit _ => rfl
  | .print hargs => rw [rename, rename, hargs.rename_congr hν]
  | .ret _ hvalue => rw [rename, rename, hvalue.rename_congr hν]
  | .call hsig hargs _ =>
    rw [rename, rename, hargs.rename_congr hν,
      hν.routine _ (hsig ▸ Option.isSome_some)]
  | .ifElse hcond hthen helse _ =>
    have hν₁ := hν.mono helse.context.1
    rw [rename, rename, hcond.rename_congr (hν₁.mono hthen.context.1),
      hthen.rename_congr hν₁, helse.rename_congr hν]
  | .whileLoop hcond hbody _ =>
    rw [rename, rename, hcond.rename_congr (hν.mono hbody.context.1),
      hbody.rename_congr hν]

/-- Names that agree make the same of statements that have an effect. -/
theorem HaveEffect.rename_congr {Γ Γ' : Context} {stmts : List (Stmt α)}
    {before returns : Returns}
    (h : HaveEffect sigs expected Γ before stmts Γ' returns)
    (hν : Names.Agree sigs Γ' ν ν') :
    renameAll ν stmts = renameAll ν' stmts := by
  match h with
  | .nil => rfl
  | .cons hstmt _ hstmts =>
    rw [renameAll, renameAll,
      hstmt.rename_congr (hν.mono hstmts.context.1), hstmts.rename_congr hν]

end

end Stmt

namespace Renaming.Agree

variable {p : Program α}

omit [Note α] in
/-- In a body they agree on the context at its end. -/
theorem inBody (h : ρ.Agree p ρ') {d : Definition α} (hd : d ∈ p.bodies)
    {Γ : Context} (hΓ : ∀ b ∈ Γ, b.1 ∈ d.declared) :
    Names.Agree p.signature? Γ (ρ.inBody d.name) (ρ'.inBody d.name) where
  slot b hb := h.slots d hd b.1 (hΓ b hb)
  routine callee hcallee := by
    rw [Program.signature?, Option.isSome_map] at hcallee
    obtain ⟨d', hd'⟩ := Option.isSome_iff_exists.mp hcallee
    have hname := List.find?_some hd'
    rw [beq_iff_eq] at hname
    exact hname ▸ h.definitions d' (List.mem_of_find?_eq_some hd')

/-- They make the same of a definition that is well typed. -/
theorem rename_definition (h : ρ.Agree p ρ') {d : Definition α}
    (hd : d ∈ p.definitions) (hwell : d.WellTyped p.signature?) :
    d.rename ρ = d.rename ρ' := by
  have hbodies : d ∈ p.bodies := List.mem_append_left _ hd
  obtain ⟨Γ, heffect⟩ := hwell.body
  have hΓ : ∀ b ∈ Γ, b.1 ∈ d.declared := fun b hb =>
    (heffect.context.2.2 b hb).elim
      (fun hparam => List.mem_append_left _ (List.mem_map_of_mem hparam))
      (List.mem_append_right _)
  have hbody := heffect.rename_congr (h.inBody hbodies hΓ)
  have hparams : (ρ.inBody d.name).params d.params
      = (ρ'.inBody d.name).params d.params :=
    List.map_congr_left fun b hb => congrArg (·, b.2) (h.slots d hbodies
      b.1 (List.mem_append_left _ (List.mem_map_of_mem hb)))
  unfold Definition.rename Block.rename
  rw [h.definitions d hd, hparams, hbody]

end Renaming.Agree

/-- **Renamings that agree make the same program** of one that is well typed,
since no other name can stand in it. -/
theorem Program.WellTyped.rename_congr {p : Program α} (h : p.WellTyped)
    (hρ : ρ.Agree p ρ') : p.rename ρ = p.rename ρ' := by
  have hdefinitions : p.definitions.map (Definition.rename ρ)
      = p.definitions.map (Definition.rename ρ') :=
    List.map_congr_left fun d hd =>
      hρ.rename_definition hd (h.definitions d hd)
  have hscript : p.script ∈ p.bodies :=
    List.mem_append_right _ (List.mem_singleton_self _)
  obtain ⟨Γ, hmain⟩ := h.main
  have hΓ : ∀ b ∈ Γ, b.1 ∈ p.script.declared := fun b hb =>
    (hmain.context.2.2 b hb).resolve_left List.not_mem_nil
  have hstmts : Stmt.renameAll (ρ.inBody p.script.name) p.main.stmts
      = Stmt.renameAll (ρ'.inBody p.script.name) p.main.stmts :=
    hmain.rename_congr (hρ.inBody hscript hΓ)
  exact congrArg₂ Program.mk hdefinitions
    (congrArg (Block.mk · p.main.span) hstmts)

/-! ## Faithful renamings that agree -/

/-- **New names for finitely many names can be extended to all names**, with
different names for different ones, so that the names with a sigil stay as
they are: the new names and the old ones are permuted. -/
theorem Ident.exists_injective_extending (names : List Ident)
    (new : Ident → Ident) (sigil : Char)
    (hnew : Set.InjOn new {name | name ∈ names})
    (hold : ∀ name ∈ names, ¬ name.BeginsWith sigil
      ∧ ¬ (new name).BeginsWith sigil) :
    ∃ f : Ident → Ident, f.Injective
      ∧ (∀ name : Ident, name.BeginsWith sigil → f name = name)
      ∧ ∀ name ∈ names, f name = new name := by
  have hdistinct : (names.dedup.map new).Nodup :=
    names.nodup_dedup.map_on fun x hx y hy =>
      hnew (List.mem_dedup.mp hx) (List.mem_dedup.mp hy)
  obtain ⟨π, hsigil, hmap⟩ := exists_perm_map_eq (¬ Ident.BeginsWith · sigil)
    names.nodup_dedup hdistinct (List.length_map _).symm
    (fun name hname => (hold name (List.mem_dedup.mp hname)).1)
    (List.forall_mem_map.mpr fun name hname =>
      (hold name (List.mem_dedup.mp hname)).2)
  exact ⟨π, π.injective, fun name hname => hsigil name (not_not.mpr hname),
    fun name hname =>
      List.map_inj_left.mp hmap name (List.mem_dedup.mpr hname)⟩

namespace Renaming.Admissible

variable {p : Program α}

omit [Note α] in
/-- The variables of a body can be renamed by a function that is faithful. -/
theorem exists_slot (hρ : ρ.Admissible p) (hown : p.HasOwnNames)
    (hown' : (p.rename ρ).HasOwnNames) {d : Definition α}
    (hd : d ∈ p.bodies) :
    ∃ f : Slot → Slot, f.Injective
      ∧ (∀ name, Ident.BeginsWith name '%' → f name = name)
      ∧ ∀ name ∈ d.declared, f name = ρ.slot d.name name := by
  refine Ident.exists_injective_extending _ _ _ (hρ.slots d hd)
    fun name hname => ⟨hown.slots d hd name hname, ?_⟩
  have hmem : ρ.slot d.name name ∈ d.declared.map (ρ.slot d.name) :=
    List.mem_map_of_mem hname
  rcases List.mem_append.mp hd with hdefinition | hscript
  · have hd' : d.rename ρ ∈ (p.rename ρ).bodies :=
      List.mem_append_left _ (List.mem_map_of_mem hdefinition)
    exact hown'.slots _ hd' _ (d.declared_rename ▸ hmem)
  · cases List.mem_singleton.mp hscript
    have hd' : (p.rename ρ).script ∈ (p.rename ρ).bodies :=
      List.mem_append_right _ (List.mem_singleton_self _)
    exact hown'.slots _ hd' _ (p.declared_script_rename ▸ hmem)

/-- The definitions can be renamed by a function that is faithful. -/
theorem exists_routine (hρ : ρ.Admissible p) (hown : p.HasOwnNames)
    (hown' : (p.rename ρ).HasOwnNames) (hwell : p.WellTyped) :
    ∃ f : Ident → Ident, f.Injective
      ∧ (∀ name : Ident, name.BeginsWith '.' → f name = name)
      ∧ f Program.entryPoint = Program.entryPoint
      ∧ ∀ d ∈ p.definitions, f d.name = ρ.routine d.name := by
  -- the main script counts as one more definition, which keeps its name
  let names := p.definitions.map Definition.name
  let new := Function.update ρ.routine Program.entryPoint Program.entryPoint
  have hmain : new Program.entryPoint = Program.entryPoint :=
    Function.update_self ..
  have hnew : ∀ d ∈ p.definitions, new d.name = ρ.routine d.name :=
    fun d hd => Function.update_of_ne (hwell.entryPoint d hd) ..
  have hfresh : Program.entryPoint ∉ {name | name ∈ names} := by
    intro hmem
    obtain ⟨d, hd, hname⟩ := List.mem_map.mp hmem
    exact hwell.entryPoint d hd hname
  have hinjective : Set.InjOn new
      {name | name ∈ Program.entryPoint :: names} := by
    have hset : {name | name ∈ Program.entryPoint :: names}
        = insert Program.entryPoint {name | name ∈ names} :=
      Set.ext fun _ => List.mem_cons
    rw [hset, Set.injOn_insert hfresh, hmain]
    constructor
    · refine hρ.definitions.congr fun name hname => ?_
      obtain ⟨d, hd, rfl⟩ := List.mem_map.mp hname
      exact (hnew d hd).symm
    · rintro ⟨_, hname, heq⟩
      obtain ⟨d, hd, rfl⟩ := List.mem_map.mp hname
      exact hρ.entryPoint d hd ((hnew d hd).symm.trans heq)
  have hold : ∀ name ∈ Program.entryPoint :: names,
      ¬ Ident.BeginsWith name '.' ∧ ¬ Ident.BeginsWith (new name) '.' := by
    refine List.forall_mem_cons.mpr ⟨?_, List.forall_mem_map.mpr ?_⟩
    · rw [hmain]
      decide
    · intro d hd
      rw [hnew d hd]
      exact ⟨hown.definitions d hd,
        hown'.definitions _ (List.mem_map_of_mem hd)⟩
  obtain ⟨f, hf, hsigil, hagree⟩ :=
    Ident.exists_injective_extending _ new '.' hinjective hold
  refine ⟨f, hf, hsigil, ?_, fun d hd => ?_⟩
  · rw [hagree _ (List.mem_cons_self ..), hmain]
  · rw [hagree _ (List.mem_cons_of_mem _ (List.mem_map_of_mem hd)),
      hnew d hd]

/-- **Some faithful renaming agrees with an admissible one**, if the names are
the program's own before and after. -/
theorem exists_faithful (hρ : ρ.Admissible p) (hown : p.HasOwnNames)
    (hown' : (p.rename ρ).HasOwnNames) (hwell : p.WellTyped) :
    ∃ ρ' : Renaming, ρ'.IsFaithful ∧ ρ.Agree p ρ' := by
  have hslot : ∀ body, ∃ f : Slot → Slot, f.Injective
      ∧ (∀ name, Ident.BeginsWith name '%' → f name = name)
      ∧ ∀ d ∈ p.bodies, d.name = body →
        ∀ name ∈ d.declared, f name = ρ.slot body name := by
    intro body
    by_cases hbody : ∃ d ∈ p.bodies, d.name = body
    · obtain ⟨d, hd, rfl⟩ := hbody
      obtain ⟨f, hf, hsigil, hagree⟩ := hρ.exists_slot hown hown' hd
      refine ⟨f, hf, hsigil, fun d' hd' hname => ?_⟩
      cases List.inj_on_of_nodup_map hwell.nodup_bodies hd' hd hname
      exact hagree
    · exact ⟨id, Function.injective_id, fun _ _ => rfl,
        fun d hd hname => absurd ⟨d, hd, hname⟩ hbody⟩
  choose slot hslot hsigil hslots using hslot
  obtain ⟨routine, hroutine, hpoint, hentry, hdefinitions⟩ :=
    hρ.exists_routine hown hown' hwell
  refine ⟨⟨slot, routine⟩, ⟨fun body => ?_, hentry⟩, ?_, ?_⟩
  · exact ⟨hslot body, hroutine, hsigil body, hpoint⟩
  · exact fun d hd => (hdefinitions d hd).symm
  · exact fun d hd name hname => (hslots d.name d hd rfl name hname).symm

end Renaming.Admissible

/-! ## Programs under other names -/

/-- The names that are all blotted out. -/
def Names.blank : Names := ⟨fun _ => "", fun _ => ""⟩

theorem Outcome.rename_blank (outcome : Outcome) :
    (outcome.rename ν).rename .blank = outcome.rename .blank := by
  cases outcome with
  | failed error => cases error <;> rfl
  | _ => rfl

/-- **What can be observed of a run that has ended**, except for names. -/
structure Observation where
  /-- How it has ended; an error is seen without the names in it. -/
  outcome : Outcome
  /-- The integers that it has not read. -/
  input : List Int64
  /-- The text that it has written. -/
  output : String
  /-- The steps that it has taken. -/
  steps : Nat
  deriving DecidableEq

/-- What can be observed of the end of a run. -/
def Observation.of (result : Outcome × Session) : Observation where
  outcome := result.1.rename .blank
  input := result.2.input
  output := result.2.output
  steps := result.2.steps

theorem Observation.of_rename (result : Outcome × Session) :
    of (result.map (Outcome.rename ν) (Session.rename ρ)) = of result :=
  congrArg (mk · _ _ _) result.1.rename_blank

/-- **Names do not matter**: a checked program and the program under other
names both compile, and their runs look the same for every input, step limit
and horizon. They leave the same input, write the same text, take as many
steps and end alike. The names have to be the programs' own, and the renaming
has to be admissible. -/
theorem Program.compile_hygienic {p : Program Span} {typed : TypedProgram}
    {ρ : Renaming} (hcheck : p.check = .ok typed) (hρ : ρ.Admissible p)
    (hown : p.HasOwnNames) (hown' : (p.rename ρ).HasOwnNames) :
    ∃ a a', p.compile = .ok a ∧ (p.rename ρ).compile = .ok a'
      ∧ ∀ limit horizon input,
        (a'.run limit horizon (.fresh input)).map Observation.of
          = (a.run limit horizon (.fresh input)).map Observation.of := by
  have hsound := check_sound hcheck
  have hwell : p.WellTyped := hsound.erase ▸ hsound.wellTyped.erase
  obtain ⟨ρ', hfaithful, hagree⟩ := hρ.exists_faithful hown hown' hwell
  obtain ⟨a, hemit⟩ := exists_emit_of_check hcheck hown.definitions
  have hcompile := compile_eq_ok.mpr ⟨typed, hcheck, hemit⟩
  refine ⟨a, a.rename ρ', hcompile, ?_, fun limit horizon input => ?_⟩
  · rw [hwell.rename_congr hagree]
    exact compile_rename hfaithful hcompile
  · obtain ⟨body, hrun⟩ :=
      @Assembly.run_rename ρ' a limit hfaithful.isInjective horizon
        (.fresh input)
    have hfresh : (Session.fresh input).rename ρ' = .fresh input := rfl
    rw [← hfresh, hrun, Option.map_map]
    exact congrArg (Option.map · _) (funext Observation.of_rename)

/-- The renaming that exchanges two variables in every body, and two
definitions. -/
def Renaming.exchange (x y : Slot) (f g : Ident) : Renaming :=
  ⟨fun _ => Equiv.swap x y, Equiv.swap f g⟩

omit [Note α] in
/-- To exchange names is admissible if no definition gets the name of the main
script. -/
theorem Renaming.exchange_admissible {p : Program α} {x y : Slot}
    {f g : Ident}
    (h : ∀ d ∈ p.definitions, Equiv.swap f g d.name ≠ Program.entryPoint) :
    (exchange x y f g).Admissible p where
  definitions := (Equiv.swap f g).injective.injOn
  entryPoint := h
  slots _ _ := (Equiv.swap x y).injective.injOn

/-- The doubling program behaves alike if its variables are called `m` and its
definition `twice`. -/
theorem Program.compile_hygienic_doubling :
    ∃ a a', doubling.compile = .ok a
      ∧ (doubling.rename (.exchange "n" "m" "double" "twice")).compile = .ok a'
      ∧ ∀ limit horizon input,
        (a'.run limit horizon (.fresh input)).map Observation.of
          = (a.run limit horizon (.fresh input)).map Observation.of := by
  obtain ⟨a, hcompile⟩ := exists_compile_doubling
  obtain ⟨typed, hcheck, -⟩ := compile_eq_ok.mp hcompile
  exact compile_hygienic hcheck (Renaming.exchange_admissible (by decide))
    ⟨by decide, by decide⟩ ⟨by decide, by decide⟩

/-! ## Names that are not the program's own -/

/-- A program that prints the number after the one that it keeps, and then the
one that it keeps. -/
def Program.successor : Program Span where
  definitions := []
  main := .spanning [
    .introduce .origin "x" .int (.lit .origin (.int 5)),
    .print .origin [.binary .origin (.arith .add) (.var .origin "x")
      (.lit .origin (.int 1))],
    .print .origin [.var .origin "x"]]

/-- What a program writes in a run without input that ends within the horizon.
-/
def Program.output? (p : Program Span) (horizon : Nat) : Option String :=
  p.compile.toOption.bind fun a =>
    (a.run none horizon (.fresh [])).map fun result => result.2.output

/-- **A variable that is called like a temporary is captured by it.** Both
programs compile, and nothing is refused, but the sum is computed where the
variable is kept. -/
theorem Program.successor_captured :
    (Renaming.exchange "x" "%t6" "f" "g").Admissible successor
      ∧ successor.check.isOk = true
      ∧ successor.output? 20 = some "6\n5\n"
      ∧ (successor.rename (.exchange "x" "%t6" "f" "g")).output? 20
        = some "6\n6\n" :=
  ⟨Renaming.exchange_admissible nofun, by decide +kernel, by decide +kernel,
    by decide +kernel⟩

/-- **A definition that is called like a text is not compiled**, though it
passes the check: the label of its entry is already taken. -/
theorem Program.doubling_refused :
    (Renaming.exchange "n" "m" "double" ".str0").Admissible doubling
      ∧ doubling.compile.isOk = true
      ∧ (doubling.rename (.exchange "n" "m" "double" ".str0")).check.isOk
        = true
      ∧ (doubling.rename (.exchange "n" "m" "double" ".str0")).compile.isOk
        = false :=
  ⟨Renaming.exchange_admissible (by decide), by decide +kernel,
    by decide +kernel, by decide +kernel⟩

end Primer
