import Primer.Proofs.Simulation.Pieces

/-!
# Code for expressions does what they mean

By induction on the rules of emission: the code of an expression acts as the
tree of the expression says, and then stores the value or branches on it, as
its destination asks (`Expr.Emits.meets`). Every rule is one of the pieces of
`Primer.Proofs.Simulation.Pieces`. What is left to see here is where the
temporaries come from, and that the names of texts mean them at the end of all
emission (`SymbolTable.Window`).

Nothing is asked of the environment but that the variables that have values
have values of their types. In particular it does not matter which variables
have none.
-/

namespace Primer

open SymbolTable

/-! ## Numbers -/

theorem counter_le_freshLabel {t t' : SymbolTable} {id : ScopeId}
    {hint : String} {label : Label}
    (h : t.freshLabel id (some hint) = (label, t')) :
    t.counter ≤ t'.counter := by
  rw [freshLabel_eq] at h
  cases h
  rw [counter_grown]
  exact Nat.le_succ _

/-! ## Types -/

/-- **An environment is typed** by a context: the variables that have values
have values of their types. -/
def Env.IsTyped (Γ : Context) (env : Env) : Prop :=
  ∀ name ty, (name, ty) ∈ Γ → ∀ v, env name = some v → v.ty = ty

theorem Env.Fits.isTyped {α : Type} {p : Program α} {body : Ident}
    {Γ : Context} {env : Env} (h : env.Fits p body Γ) : env.IsTyped Γ :=
  fun name ty hmem => (h name ty hmem).1

/-- Whether a destination can do something with values of a type. -/
def Destination.Suits : Destination → Ty → Prop
  | .store _, _ => True
  | .branch _ _, ty => ty = .bool

/-- A conversion that keeps the value has nothing to do. -/
theorem Conversion.apply_of_keeps {target : Conversion} {v : Literal}
    (hkeeps : target.keeps v.ty = true) (hty : v.ty.IsConvertible) :
    ∃ u, target.apply v = pure u ∧ u.ty = target.result
      ∧ u.encode = v.encode := by
  cases target with
  | toInt => cases v with
    | int n => exact ⟨.int n, rfl, rfl, rfl⟩
    | bool b => exact ⟨.int (if b then 1 else 0), rfl, rfl, rfl⟩
    | str => cases hkeeps
    | unit => simp [Ty.IsConvertible, Literal.ty] at hty
  | toStr => cases v with
    | str s => exact ⟨.str s, rfl, rfl, rfl⟩
    | int | bool => cases hkeeps
    | unit => simp [Ty.IsConvertible, Literal.ty] at hty

/-! ## Expressions -/

namespace Expr

variable {S : Setting} {sigs : Signatures} {Γ : Context} {env : Env}

open Setting

mutual

/-- **The code of an expression acts as the tree of the expression says**, and
does with the result what the destination asks for. -/
theorem Emits.meets (henv : env.IsTyped Γ)
    (hplain : ∀ b ∈ Γ, Ident.Plain b.1) {e : Expr Judged}
    {dest : Destination} {t t' : SymbolTable} {code : Code}
    (h : e.Emits S.site dest t code t')
    (hw : Window S.program.symbols t t') {ty : Ty} (hty : e.HasType sigs Γ ty)
    (hdest : dest.Suits ty) :
    S.Meets sigs env code dest t.counter t'.counter ty
      (e.act S.routine.name env) := by
  match h with
  | .int =>
    cases hty
    exact Puts.single (Nat.le_refl _) rfl fun _ _ => Instr.does_set _ _
  | .str htext =>
    cases hty
    have hgrows : Grows .global t t' := .intern htext
    exact Puts.single hgrows.counter_le rfl
      fun _ _ => Instr.does_loadString (hw.constant? htext)
  | .unit =>
    cases hty
    exact Puts.single (Nat.le_refl _) rfl fun _ _ => Instr.does_set _ _
  | .boolStore =>
    cases hty
    exact Puts.single (Nat.le_refl _) rfl fun _ _ => Instr.does_set _ _
  | .boolBranch => exact Forks.jump (Nat.le_refl _) _
  | .varStore =>
    cases hty with
    | var _ hname =>
      exact Puts.variable (hplain _ hname) (Nat.le_refl _) (henv _ _ hname)
  | .varBranch =>
    cases hdest
    cases hty with
    | var _ hname =>
      exact Forks.variable (hplain _ hname) (Nat.le_refl _) (henv _ _ hname)
  | .arith hleft hlhs hright hrhs =>
    cases hty with
    | arith _ htl htr =>
      -- each operand sees a part of the window, the second the later one
      have gright := Grows.temporary hright
      obtain ⟨wl, wr⟩ := (hw.later (Grows.temporary hleft)).halves
        hlhs.takes.grows (gright.trans hrhs.takes.grows)
      exact Puts.arith (hlhs.meets henv hplain wl htl trivial)
        (hrhs.meets henv hplain (wr.later gright) htr trivial)
        (made_freshTemporary hleft) (made_freshTemporary hright)
  | .compare hleft hlhs hright hrhs =>
    cases hty with
    | compare _ htl htr =>
      have gright := Grows.temporary hright
      obtain ⟨wl, wr⟩ := (hw.later (Grows.temporary hleft)).halves
        hlhs.takes.grows (gright.trans hrhs.takes.grows)
      exact Forks.compare (hlhs.meets henv hplain wl htl trivial)
        (hrhs.meets henv hplain (wr.later gright) htr trivial)
        (made_freshTemporary hleft) (made_freshTemporary hright)
  | .and hnext hlhs hrhs =>
    cases hty with
    | logic _ htl htr =>
      have gnext := (Takes.label (by simp) hnext).grows
      obtain ⟨wl, wr⟩ :=
        (hw.later gnext).halves hlhs.takes.grows hrhs.takes.grows
      exact Forks.connective (hlhs.meets henv hplain wl htl rfl)
        (hrhs.meets henv hplain wr htr rfl) (counter_le_freshLabel hnext)
        (by rintro (_ | _) <;> rfl)
  | .or hnext hlhs hrhs =>
    cases hty with
    | logic _ htl htr =>
      have gnext := (Takes.label (by simp) hnext).grows
      obtain ⟨wl, wr⟩ :=
        (hw.later gnext).halves hlhs.takes.grows hrhs.takes.grows
      exact Forks.connective (hlhs.meets henv hplain wl htl rfl)
        (hrhs.meets henv hplain wr htr rfl) (counter_le_freshLabel hnext)
        (by rintro (_ | _) <;> rfl)
  | .not hoperand =>
    cases hty with
    | not _ hto => exact Forks.not (hoperand.meets henv hplain hw hto rfl)
  | .input htemp hprompt =>
    cases hty with
    | input _ htp =>
      have wp := hw.later (Grows.temporary htemp)
      exact Puts.input (hprompt.meets henv hplain wp htp trivial)
        (made_freshTemporary htemp)
  | .strToInt htyo htemp hoperand =>
    cases hty with
    | convert _ _ hto =>
      obtain rfl := hto.ty_eq.symm.trans htyo
      have wo := hw.later (Grows.temporary htemp)
      exact Puts.strToInt (hoperand.meets henv hplain wo hto trivial)
        (made_freshTemporary htemp)
  | .intToStr htyo htemp hoperand =>
    cases hty with
    | convert _ _ hto =>
      obtain rfl := hto.ty_eq.symm.trans htyo
      have wo := hw.later (Grows.temporary htemp)
      exact Puts.intToStr (hoperand.meets henv hplain wo hto trivial)
        (made_freshTemporary htemp)
  | .boolToStr htyo hchoice =>
    cases hty with
    | convert _ _ hto =>
      obtain rfl := hto.ty_eq.symm.trans htyo
      refine Puts.convert (hchoice.puts henv hplain hw hto
        (fun v => .str v.printed)
        (fun _ _ => Instr.does_loadString S.constants.yes)
        (fun _ _ => Instr.does_loadString S.constants.no)) fun a ha => ?_
      obtain ⟨b, rfl⟩ := Literal.eq_bool ha
      exact ⟨.str (Literal.bool b).printed, rfl, rfl, rfl⟩
  | .keep hkeeps hoperand =>
    cases hty with
    | convert _ hconv hto =>
      refine Puts.convert (hoperand.meets henv hplain hw hto trivial)
        fun a ha => ?_
      rw [hto.ty_eq, ← ha] at hkeeps
      rw [← ha] at hconv
      exact Conversion.apply_of_keeps hkeeps hconv
  | .call hargs =>
    cases hty with
    | call _ hsig hta =>
      exact Gathers.call (hargs.gathers henv hplain hw hta) hsig
  | .branchStored _ htemp hvalue =>
    cases hdest
    exact Forks.ofPut (hvalue.meets henv hplain
      (hw.later (Grows.temporary htemp)) hty trivial)
      (made_freshTemporary htemp)
  | .storeBranched hbranched hflag hchoice =>
    obtain rfl := hty.eq_bool hbranched
    exact Puts.ofFlag (hchoice.puts henv hplain
      (hw.later (Grows.temporary hflag)) hty Literal.encode
      (fun _ _ => Instr.does_set _ _) (fun _ _ => Instr.does_set _ _))
      (made_freshTemporary hflag)

/-- The code of a choice puts one of two values. -/
theorem EmitsChoice.puts (henv : env.IsTyped Γ)
    (hplain : ∀ b ∈ Γ, Ident.Plain b.1) {e : Expr Judged}
    {onTrue onFalse : Instr} {t t' : SymbolTable} {code : Code}
    (h : e.EmitsChoice S.site onTrue onFalse t code t')
    (hw : Window S.program.symbols t t') (hty : e.HasType sigs Γ .bool)
    {dst : Slot} (encode : Literal → Value)
    (htrue : ∀ f w, onTrue.Does S.program f w
      (f.set dst (encode (.bool true))) w)
    (hfalse : ∀ f w, onFalse.Does S.program f w
      (f.set dst (encode (.bool false))) w) :
    S.Puts sigs env code dst t.counter t'.counter .bool encode
      (e.act S.routine.name env) := by
  match h with
  | .mk hyes hno hjoin he =>
    have glabels := (Takes.labels (by simp) hyes hno hjoin).grows
    exact Forks.choose (he.meets henv hplain (hw.later glabels) hty rfl)
      glabels.counter_le htrue hfalse

/-- The code of arguments gathers them. -/
theorem EmitsArgs.gathers (henv : env.IsTyped Γ)
    (hplain : ∀ b ∈ Γ, Ident.Plain b.1) {args : List (Expr Judged)}
    {temps : List Slot} {t t' : SymbolTable} {code : Code}
    (h : EmitsArgs S.site args temps t code t')
    (hw : Window S.program.symbols t t') {tys : List Ty}
    (hty : HaveTypes sigs Γ args tys) :
    S.Gathers sigs env code temps t.counter t'.counter tys
      (actArgs S.routine.name env args) := by
  match h with
  | .nil =>
    cases hty
    exact Gathers.nil (Nat.le_refl _)
  | .cons htemp harg hargs =>
    cases hty with
    | cons hta htas =>
      obtain ⟨wa, was⟩ := (hw.later (Grows.temporary htemp)).halves
        harg.takes.grows hargs.takes.grows
      exact Gathers.cons (harg.meets henv hplain wa hta trivial)
        (made_freshTemporary htemp) (hargs.gathers henv hplain was htas)

end

variable {p : Program Judged} {calls : Calls}

/-- **The code of an expression does what the expression means.** -/
theorem Emits.evaluates (hcalls : S.Serves p calls)
    (henv : env.Fits p S.routine.name Γ)
    (hplain : ∀ b ∈ Γ, Ident.Plain b.1) {e : Expr Judged}
    {dest : Destination} {t t' : SymbolTable} {code : Code}
    (h : e.Emits S.site dest t code t')
    (hw : Window S.program.symbols t t') {ty : Ty}
    (hty : e.HasType p.signature? Γ ty) (hdest : dest.Suits ty) :
    S.Evaluates env code dest t.counter t'.counter
      (e.eval calls S.routine.name env) := by
  rw [← run_act]
  exact (h.meets henv.isTyped hplain hw hty hdest).evaluates hcalls

theorem EmitsChoice.stores (hcalls : S.Serves p calls)
    (henv : env.Fits p S.routine.name Γ)
    (hplain : ∀ b ∈ Γ, Ident.Plain b.1) {e : Expr Judged}
    {onTrue onFalse : Instr} {t t' : SymbolTable} {code : Code}
    (h : e.EmitsChoice S.site onTrue onFalse t code t')
    (hw : Window S.program.symbols t t')
    (hty : e.HasType p.signature? Γ .bool) {dst : Slot}
    (encode : Literal → Value)
    (htrue : ∀ f w, onTrue.Does S.program f w
      (f.set dst (encode (.bool true))) w)
    (hfalse : ∀ f w, onFalse.Does S.program f w
      (f.set dst (encode (.bool false))) w) :
    S.Stores env code dst t.counter t'.counter encode
      (e.eval calls S.routine.name env) := by
  rw [← run_act]
  exact (h.puts henv.isTyped hplain hw hty encode htrue hfalse).stores hcalls

end Expr

end Primer
