import Primer.Proofs.Typing.Rules

/-!
# Forgetting types

`erase` takes the types off a checked tree and leaves the spans. What is left
is the tree that was checked, so erasing is how a statement about a program
and one about its checked tree are brought together. Whatever the typing rules
say of a tree with types they say of the tree without.
-/

namespace Primer

namespace Expr

mutual

/-- **The expression without types.** -/
def erase : Expr Judged → Expr Span
  | lit note value => lit note.span value
  | var note name => var note.span name
  | binary note op lhs rhs => binary note.span op lhs.erase rhs.erase
  | not note operand => not note.span operand.erase
  | input note prompt => input note.span prompt.erase
  | convert note target operand => convert note.span target operand.erase
  | call note callee args => call note.span callee (eraseAll args)

/-- The expressions without types. -/
def eraseAll : List (Expr Judged) → List (Expr Span)
  | [] => []
  | e :: es => e.erase :: eraseAll es

end

end Expr

namespace Stmt

mutual

/-- **The statement without types.** -/
def erase : Stmt Judged → Stmt Span
  | introduce span name ty init => introduce span name ty init.erase
  | assign span name value => assign span name value.erase
  | update span op name operand => update span op name operand.erase
  | pass span => pass span
  | print span args => print span (Expr.eraseAll args)
  | ret span value => ret span value.erase
  | retUnit span => retUnit span
  | call span callee args => call span callee (Expr.eraseAll args)
  | ifElse span cond thenBlock elseBlock =>
    ifElse span cond.erase ⟨eraseAll thenBlock.stmts, thenBlock.span⟩
      ⟨eraseAll elseBlock.stmts, elseBlock.span⟩
  | whileLoop span cond body =>
    whileLoop span cond.erase ⟨eraseAll body.stmts, body.span⟩

/-- The statements without types. -/
def eraseAll : List (Stmt Judged) → List (Stmt Span)
  | [] => []
  | stmt :: stmts => stmt.erase :: eraseAll stmts

end

end Stmt

/-- The block without types. -/
def Block.erase (b : Block (Stmt Judged)) : Block (Stmt Span) :=
  ⟨Stmt.eraseAll b.stmts, b.span⟩

/-- The definition without types noted on its body. -/
def Definition.erase (d : Definition Judged) : Definition Span :=
  ⟨d.name, d.params, d.ret, d.body.erase, d.nameSpan⟩

theorem Definition.map_name_erase (ds : List (Definition Judged)) :
    (ds.map Definition.erase).map Definition.name
      = ds.map Definition.name := by
  rw [List.map_map]
  rfl

/-- **The program without types.** -/
def Program.erase (p : Program Judged) : Program Span :=
  ⟨p.definitions.map Definition.erase, p.main.erase⟩

theorem Program.signature?_erase (p : Program Judged) (name : Ident) :
    p.erase.signature? name = p.signature? name := by
  unfold signature? erase
  rw [List.find?_map, Option.map_map]
  rfl

namespace Expr

variable {sigs : Signatures} {Γ : Context}

mutual

/-- **An expression keeps its type** when types are forgotten. -/
theorem HasType.erase {e : Expr Judged} {ty : Ty}
    (h : e.HasType sigs Γ ty) : e.erase.HasType sigs Γ ty := by
  match h with
  | .lit _ => exact .lit trivial
  | .var _ hname => exact .var trivial hname
  | .arith _ hlhs hrhs => exact .arith trivial hlhs.erase hrhs.erase
  | .compare _ hlhs hrhs => exact .compare trivial hlhs.erase hrhs.erase
  | .logic _ hlhs hrhs => exact .logic trivial hlhs.erase hrhs.erase
  | .not _ hoperand => exact .not trivial hoperand.erase
  | .input _ hprompt => exact .input trivial hprompt.erase
  | .convert _ hty hoperand => exact .convert trivial hty hoperand.erase
  | .call _ hsig hargs => exact .call trivial hsig hargs.erase

theorem HaveTypes.erase {es : List (Expr Judged)} {tys : List Ty}
    (h : HaveTypes sigs Γ es tys) : HaveTypes sigs Γ (eraseAll es) tys := by
  match h with
  | .nil => exact .nil
  | .cons he hes => exact .cons he.erase hes.erase

end

end Expr

namespace Stmt

variable {sigs : Signatures} {expected : Option Ty}

mutual

/-- **A statement keeps its effect** when types are forgotten. -/
theorem HasEffect.erase {Γ Γ' : Context} {stmt : Stmt Judged}
    {returns : Returns} (h : stmt.HasEffect sigs expected Γ Γ' returns) :
    stmt.erase.HasEffect sigs expected Γ Γ' returns := by
  match h with
  | .introduce hinit hnew => exact .introduce hinit.erase hnew
  | .assign hname hvalue => exact .assign hname hvalue.erase
  | .update hname hoperand => exact .update hname hoperand.erase
  | .pass => exact .pass
  | .print hargs => exact .print hargs.erase
  | .ret hexpected hvalue => exact .ret hexpected hvalue.erase
  | .retUnit hexpected => exact .retUnit hexpected
  | .call hsig hargs hret => exact .call hsig hargs.erase hret
  | .ifElse hcond hthen helse hreturns =>
    exact .ifElse hcond.erase hthen.erase helse.erase hreturns
  | .whileLoop hcond hbody hreturns =>
    exact .whileLoop hcond.erase hbody.erase hreturns

theorem HaveEffect.erase {Γ Γ' : Context} {stmts : List (Stmt Judged)}
    {before returns : Returns}
    (h : HaveEffect sigs expected Γ before stmts Γ' returns) :
    HaveEffect sigs expected Γ before (eraseAll stmts) Γ' returns := by
  match h with
  | .nil => exact .nil
  | .cons hstmt hthen hstmts => exact .cons hstmt.erase hthen hstmts.erase

end

end Stmt

theorem Definition.WellTyped.erase {sigs : Signatures}
    {d : Definition Judged} (h : d.WellTyped sigs) :
    d.erase.WellTyped sigs := by
  obtain ⟨hparams, Γ, hbody⟩ := h
  exact ⟨hparams, Γ, hbody.erase⟩

/-- **A program stays well typed** when types are forgotten. -/
theorem Program.WellTyped.erase {p : Program Judged} (h : p.WellTyped) :
    p.erase.WellTyped := by
  have hsigs : p.erase.signature? = p.signature? :=
    funext p.signature?_erase
  obtain ⟨Γ, hmain⟩ := h.main
  constructor
  · show ((p.definitions.map Definition.erase).map Definition.name).Nodup
    rw [Definition.map_name_erase]
    exact h.distinct
  · exact List.forall_mem_map.mpr h.entryPoint
  · rw [hsigs]
    exact List.forall_mem_map.mpr fun d hd => (h.definitions d hd).erase
  · rw [hsigs]
    exact ⟨Γ, hmain.erase⟩

end Primer
