import Primer.Proofs.Machine.Control
import Primer.Proofs.Semantics.Soundness
import Primer.Proofs.Typing.Scopes

/-!
# What is noted on a checked tree

The check consumes a tree and builds another one. That nothing else happens on
the way than that types are noted is a statement about every expression in the
tree, at whatever depth, and about the variables in sight where it stands:
the parameters of the body, and what the body introduces before it in the
text. An *occurrence* is an expression together with these
(`Definition.occurrences`).

In such a context no name has two types, so the typing rules give an
expression at most one type. On a checked tree they give it one, and it is the
type that was noted.
-/

namespace Primer

variable {α : Type}

/-! ## Occurrences -/

namespace Expr

mutual

/-- **The parts of an expression**, itself among them. -/
def parts : Expr α → List (Expr α)
  | lit note value => [lit note value]
  | var note name => [var note name]
  | binary note op lhs rhs => binary note op lhs rhs :: (parts lhs ++ parts rhs)
  | not note operand => not note operand :: parts operand
  | input note prompt => input note prompt :: parts prompt
  | convert note target operand =>
    convert note target operand :: parts operand
  | call note callee args => call note callee args :: partsAll args

/-- The parts of expressions. -/
def partsAll : List (Expr α) → List (Expr α)
  | [] => []
  | e :: es => parts e ++ partsAll es

end

end Expr

namespace Stmt

mutual

/-- **The variables that a statement introduces**, with their types, in the
order of the text. -/
def locals : Stmt α → List (Ident × Ty)
  | introduce _ name ty _ => [(name, ty)]
  | assign _ _ _ | update _ _ _ _ | pass _ | print _ _ | ret _ _
  | retUnit _ | call _ _ _ => []
  | ifElse _ _ thenBlock elseBlock =>
    localsAll thenBlock.stmts ++ localsAll elseBlock.stmts
  | whileLoop _ _ body => localsAll body.stmts

/-- The variables that statements introduce. -/
def localsAll : List (Stmt α) → List (Ident × Ty)
  | [] => []
  | stmt :: stmts => locals stmt ++ localsAll stmts

end

/-- The occurrences of expressions with the same variables in sight. -/
def partsIn (Γ : Context) (es : List (Expr α)) :
    List (Context × Expr α) :=
  (Expr.partsAll es).map (Γ, ·)

mutual

/-- **The occurrences in a statement**: the expressions in it, at any depth,
each with the variables in sight there. `Γ` are those in sight at the
beginning. -/
def occurrences (Γ : Context) : Stmt α → List (Context × Expr α)
  | introduce _ _ _ init => partsIn Γ [init]
  | assign _ _ value => partsIn Γ [value]
  | update _ _ _ operand => partsIn Γ [operand]
  | pass _ => []
  | print _ args => partsIn Γ args
  | ret _ value => partsIn Γ [value]
  | retUnit _ => []
  | call _ _ args => partsIn Γ args
  | ifElse _ cond thenBlock elseBlock =>
    partsIn Γ [cond] ++ (occurrencesAll Γ thenBlock.stmts
      ++ occurrencesAll ((localsAll thenBlock.stmts).reverse ++ Γ)
        elseBlock.stmts)
  | whileLoop _ cond body =>
    partsIn Γ [cond] ++ occurrencesAll Γ body.stmts

/-- The occurrences in statements, each of which sees what is introduced
before it. -/
def occurrencesAll (Γ : Context) : List (Stmt α) → List (Context × Expr α)
  | [] => []
  | stmt :: stmts =>
    occurrences Γ stmt ++ occurrencesAll ((locals stmt).reverse ++ Γ) stmts

end

end Stmt

/-- **The occurrences in a body**, whose parameters are in sight all over it.
-/
def Definition.occurrences (d : Definition α) : List (Context × Expr α) :=
  Stmt.occurrencesAll d.params d.body.stmts

/-! ## Types of occurrences -/

variable [Note α] {sigs : Signatures} {Γ : Context}

namespace Expr

mutual

/-- Every part of an expression that has a type has one. -/
theorem HasType.parts {e : Expr α} {ty : Ty} (h : e.HasType sigs Γ ty) :
    ∀ part ∈ e.parts, ∃ ty, part.HasType sigs Γ ty := by
  have hself : ∃ ty, e.HasType sigs Γ ty := ⟨ty, h⟩
  match h with
  | .lit _ | .var _ _ => exact List.forall_mem_singleton.mpr hself
  | .arith _ hlhs hrhs | .compare _ hlhs hrhs | .logic _ hlhs hrhs =>
    exact List.forall_mem_cons.mpr ⟨hself,
      List.forall_mem_append.mpr ⟨hlhs.parts, hrhs.parts⟩⟩
  | .not _ hoperand | .input _ hoperand | .convert _ _ hoperand =>
    exact List.forall_mem_cons.mpr ⟨hself, hoperand.parts⟩
  | .call _ _ hargs =>
    exact List.forall_mem_cons.mpr ⟨hself, hargs.partsAll⟩

theorem HaveTypes.partsAll {es : List (Expr α)} {tys : List Ty}
    (h : HaveTypes sigs Γ es tys) :
    ∀ part ∈ partsAll es, ∃ ty, part.HasType sigs Γ ty := by
  match h with
  | .nil => exact nofun
  | .cons he hes =>
    exact List.forall_mem_append.mpr ⟨he.parts, hes.partsAll⟩

end

/-- **An expression has one type only** where no name has two. -/
theorem HasType.unique (hΓ : Γ.IsFunctional) {e : Expr α} {ty ty' : Ty}
    (h : e.HasType sigs Γ ty) (h' : e.HasType sigs Γ ty') : ty = ty' := by
  cases h with
  | lit => cases h'; rfl
  | var _ hname => cases h' with
    | var _ hname' => exact hΓ _ _ _ hname hname'
  | arith | compare | logic | not | input | convert => cases h'; rfl
  | call _ hsig => cases h' with
    | call _ hsig' =>
      rw [hsig] at hsig'
      cases hsig'
      rfl

end Expr

namespace Stmt

variable {expected : Option Ty}

/-- **An occurrence is sound** in a body with the context `Γ` at its end: what
is in sight of it is in sight there, and it has a type. -/
def IsSound (sigs : Signatures) (Γ : Context) (o : Context × Expr α) : Prop :=
  o.1 ⊆ Γ ∧ ∃ ty, o.2.HasType sigs o.1 ty

theorem IsSound.mono {Γ' : Context} {o : Context × Expr α}
    (h : IsSound sigs Γ o) (hsub : Γ ⊆ Γ') : IsSound sigs Γ' o :=
  ⟨List.Subset.trans h.1 hsub, h.2⟩

theorem isSound_of_mem_partsIn {Γ' : Context} (hsub : Γ ⊆ Γ')
    {es : List (Expr α)} {tys : List Ty}
    (h : Expr.HaveTypes sigs Γ es tys) :
    ∀ o ∈ partsIn Γ es, IsSound sigs Γ' o := by
  intro o ho
  obtain ⟨part, hpart, rfl⟩ := List.mem_map.mp ho
  exact ⟨hsub, h.partsAll part hpart⟩

theorem isSound_of_mem_partsIn_singleton {Γ' : Context} (hsub : Γ ⊆ Γ')
    {e : Expr α} {ty : Ty} (h : e.HasType sigs Γ ty) :
    ∀ o ∈ partsIn Γ [e], IsSound sigs Γ' o :=
  isSound_of_mem_partsIn hsub (.cons h .nil)

mutual

/-- **The context after a statement** has what the statement introduces. -/
theorem HasEffect.context_eq {Γ Γ' : Context} {stmt : Stmt α}
    {returns : Returns} (h : stmt.HasEffect sigs expected Γ Γ' returns) :
    Γ' = stmt.locals.reverse ++ Γ := by
  match h with
  | .assign _ _ | .update _ _ | .pass | .print _ | .ret _ _ | .retUnit _
  | .call _ _ _ | .introduce _ _ => rfl
  | .ifElse _ hthen helse _ =>
    rw [helse.context_eq, hthen.context_eq, locals, List.reverse_append,
      List.append_assoc]
  | .whileLoop _ hbody _ => exact hbody.context_eq

/-- The context after statements has what they introduce. -/
theorem HaveEffect.context_eq {Γ Γ' : Context} {stmts : List (Stmt α)}
    {before returns : Returns}
    (h : HaveEffect sigs expected Γ before stmts Γ' returns) :
    Γ' = (localsAll stmts).reverse ++ Γ := by
  match h with
  | .nil => rfl
  | .cons hstmt _ hstmts =>
    rw [hstmts.context_eq, hstmt.context_eq, localsAll,
      List.reverse_append, List.append_assoc]

end

mutual

/-- **All occurrences in a statement are sound.** -/
theorem HasEffect.isSound {Γ Γ' : Context} {stmt : Stmt α}
    {returns : Returns} (h : stmt.HasEffect sigs expected Γ Γ' returns) :
    ∀ o ∈ stmt.occurrences Γ, IsSound sigs Γ' o := by
  have hsub := h.context.1
  match h with
  | .introduce he _ | .assign _ he | .update _ he | .ret _ he =>
    exact isSound_of_mem_partsIn_singleton hsub he
  | .pass | .retUnit _ => exact nofun
  | .print hargs | .call _ hargs _ => exact isSound_of_mem_partsIn hsub hargs
  | .ifElse hcond hthen helse _ =>
    refine List.forall_mem_append.mpr
      ⟨isSound_of_mem_partsIn_singleton hsub hcond,
        List.forall_mem_append.mpr ⟨fun o ho => ?_, ?_⟩⟩
    · exact (hthen.isSound o ho).mono helse.context.1
    · rw [← hthen.context_eq]
      exact helse.isSound
  | .whileLoop hcond hbody _ =>
    exact List.forall_mem_append.mpr
      ⟨isSound_of_mem_partsIn_singleton hsub hcond, hbody.isSound⟩

/-- All occurrences in statements are sound. -/
theorem HaveEffect.isSound {Γ Γ' : Context} {stmts : List (Stmt α)}
    {before returns : Returns}
    (h : HaveEffect sigs expected Γ before stmts Γ' returns) :
    ∀ o ∈ occurrencesAll Γ stmts, IsSound sigs Γ' o := by
  match h with
  | .nil => exact nofun
  | .cons hstmt _ hstmts =>
    refine List.forall_mem_append.mpr ⟨fun o ho => ?_, ?_⟩
    · exact (hstmt.isSound o ho).mono hstmts.context.1
    · rw [← hstmt.context_eq]
      exact hstmts.isSound

end

end Stmt

/-! ## Checked programs -/

theorem Context.isFunctional_of_nodup (h : (Γ.map Prod.fst).Nodup) :
    Γ.IsFunctional := fun _ _ _ hty hty' =>
  (Prod.mk.inj (List.inj_on_of_nodup_map h hty hty' rfl)).2

/-- **A body of a well typed program has an effect**, and starts with
parameters of different names. -/
theorem Program.WellTyped.exists_haveEffect {p : Program α} (h : p.WellTyped)
    {d : Definition α} (hd : d ∈ p.bodies) :
    (d.params.map Prod.fst).Nodup ∧ ∃ expected Γ returns,
      Stmt.HaveEffect p.signature? expected d.params .never d.body.stmts Γ
        returns := by
  rcases List.mem_append.mp hd with hd | hd
  · obtain ⟨hnodup, Γ, heffect⟩ := h.definitions d hd
    exact ⟨hnodup, _, Γ, _, heffect⟩
  · cases List.mem_singleton.mp hd
    obtain ⟨Γ, heffect⟩ := h.main
    exact ⟨List.nodup_nil, _, Γ, _, heffect⟩

/-- **In a well typed program, every expression has a type**, in a context
that gives no name two. -/
theorem Program.WellTyped.occurrence {p : Program α} (h : p.WellTyped)
    {d : Definition α} (hd : d ∈ p.bodies) {o : Context × Expr α}
    (ho : o ∈ d.occurrences) :
    o.1.IsFunctional ∧ ∃ ty, o.2.HasType p.signature? o.1 ty := by
  obtain ⟨hnodup, _, Γ, _, heffect⟩ := h.exists_haveEffect hd
  obtain ⟨hsub, hty⟩ := heffect.isSound o ho
  have hΓ := heffect.context.2.1 (Context.isFunctional_of_nodup hnodup)
  exact ⟨fun x ty ty' hx hx' => hΓ x ty ty' (hsub hx) (hsub hx'), hty⟩

/-- **The check only notes types.** Without them, what it gives is the program
that was checked, with all names and spans. And what it notes on an
expression, at any depth and in any body, is the one type that the rules give
to the expression where it stands, with the parameters in sight and the
variables that the body introduces before it. -/
theorem Program.check_only_annotates {p : Program Span}
    {typed : TypedProgram} (h : p.check = .ok typed) :
    typed.program.erase = p
    ∧ ∀ d ∈ typed.program.bodies, ∀ o ∈ d.occurrences, ∀ ty,
      o.2.erase.HasType p.signature? o.1 ty ↔ ty = o.2.ty := by
  have hsound := check_sound h
  refine ⟨hsound.erase, fun d hd o ho ty => ?_⟩
  have hsigs : p.signature? = typed.program.signature? := by
    funext name
    rw [← hsound.erase, signature?_erase]
  obtain ⟨hΓ, noted, hnoted⟩ := hsound.wellTyped.occurrence hd ho
  cases hnoted.ty_eq
  rw [hsigs]
  constructor
  · intro hty
    exact hty.unique hΓ hnoted.erase
  · rintro rfl
    exact hnoted.erase

/-- The check only notes types on the doubling program. -/
theorem Program.check_only_annotates_doubling : ∃ typed,
    doubling.check = .ok typed ∧ typed.program.erase = doubling
    ∧ ∀ d ∈ typed.program.bodies, ∀ o ∈ d.occurrences, ∀ ty,
      o.2.erase.HasType doubling.signature? o.1 ty ↔ ty = o.2.ty := by
  obtain ⟨_, hcompile⟩ := exists_compile_doubling
  obtain ⟨typed, hcheck, -⟩ := compile_eq_ok.mp hcompile
  exact ⟨typed, hcheck, check_only_annotates hcheck⟩

end Primer
