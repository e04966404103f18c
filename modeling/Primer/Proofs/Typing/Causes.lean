import Primer.Proofs.Typing.Paths

/-!
# What a check refuses for

A check ends with a result or with a refusal, and `Check.Ends` says what holds
of the one and of the cause of the other. What holds of two checks, one after
the other, follows from what holds of each (`Check.Ends.bind`), so it is
proved along the checker and not along its runs: it covers the parts that were
checked of a program that is refused in the end.

Most checks have nothing to do with returns, and do not refuse for a cause
that has: those of expressions, and those of statements that control goes
straight through. The others deal in summaries. A return is compared with the
type that is expected before there is a summary of it, so all summaries of a
body have that one type (`Returns.Fits`). The errors for returns that disagree
with each other are therefore never reported, although putting two summaries
together can end in one (`Program.returns_never_conflict`).
-/

namespace Primer

/-! ## How a check ends -/

/-- **How a check ends**: with a result of which `Good` holds, or with a
refusal for a cause of which `Allowed` holds. -/
def Check.Ends {β : Type} (Good : β → Prop) (Allowed : Cause → Prop) :
    Check β → Prop
  | .ok b => Good b
  | .error e => Allowed e.cause

namespace Check.Ends

variable {β γ : Type} {Good Good' : β → Prop} {Next : γ → Prop}
  {Allowed Allowed' : Cause → Prop} {x : Check β}

theorem pure {b : β} (h : Good b) : Ends Good Allowed (Pure.pure b) := h

theorem refuse {cause : Cause} {span : Span} (h : Allowed cause) :
    Ends Good Allowed (Primer.refuse cause span) := h

theorem require {holds : Bool} {cause : Cause} {span : Span}
    (h : Allowed cause) :
    Ends (fun _ => holds = true) Allowed (Primer.require holds cause span) := by
  cases holds with
  | true => rfl
  | false => exact h

theorem mono (h : x.Ends Good Allowed) (hgood : ∀ b, Good b → Good' b)
    (hallowed : ∀ cause, Allowed cause → Allowed' cause) :
    x.Ends Good' Allowed' := by
  cases x with
  | ok b => exact hgood b h
  | error e => exact hallowed e.cause h

/-- **One check after the other.** -/
theorem bind {f : β → Check γ} (h : x.Ends Good Allowed)
    (hf : ∀ b, Good b → (f b).Ends Next Allowed) :
    Ends Next Allowed (x >>= f) := by
  cases x with
  | ok b => exact hf b h
  | error e => exact h

theorem ok {b : β} (h : x.Ends Good Allowed) (hx : x = .ok b) : Good b := by
  rw [hx] at h
  exact h

theorem error {e : TypeError} (h : x.Ends Good Allowed)
    (hx : x = .error e) : Allowed e.cause := by
  rw [hx] at h
  exact h

end Check.Ends

/-! ## Checks that have nothing to do with returns -/

/-- Whether a cause has to do with returns. -/
def Cause.concernsReturns : Cause → Bool
  | unreachable | neverReturns _ | mightNotReturn _ | unexpectedReturn
  | returnTypeMismatch _ _ | inconsistentReturns _ _ => true
  | undeclaredVariable _ | unknownFunction _ | redeclared _
  | arityMismatch _ _ _ | argumentType _ _ _ _ | typeMismatch _ _
  | binaryOperands _ _ _ _ | incomparableOperands _ _ | unaryOperand _ _ _
  | conversion _ _ | nonBooleanCondition _ _ | notAProcedure _ _ => false

/-- **A check that has nothing to do with returns**: whatever it refuses for,
it is not them. -/
abbrev Check.IgnoresReturns {β : Type} (x : Check β) : Prop :=
  x.Ends (fun _ => True) (·.concernsReturns = false)

section Expressions

variable {sigs : Signatures} {scope : Scope}

/-- Looking up a signature has nothing to do with returns. -/
theorem Signatures.forCall_ignoresReturns {callee : Ident} {found : Nat}
    {span : Span} : (sigs.forCall callee found span).IgnoresReturns := by
  unfold forCall
  split
  · exact .refuse rfl
  · split
    · exact trivial
    · exact .refuse rfl

theorem Scope.typeOf_ignoresReturns {name : Ident} {span : Span} :
    (scope.typeOf name span).IgnoresReturns := by
  unfold typeOf
  split
  · exact trivial
  · exact .refuse rfl

/-- Looking at the types of operands has nothing to do with returns. -/
theorem BinOp.admit_ignoresReturns {op : BinOp} {lhs rhs : Ty} {span : Span} :
    Check.IgnoresReturns <| op.admit lhs rhs span := by
  unfold BinOp.admit
  split
  · exact .refuse rfl
  · refine Check.Ends.mono (.require ?_) (fun _ _ => trivial) fun _ h => h
    rfl

namespace Expr

mutual

/-- **Checking an expression has nothing to do with returns.** -/
theorem check_ignoresReturns (e : Expr Span) :
    (e.check sigs scope).IgnoresReturns := by
  match e with
  | .lit _ _ => exact trivial
  | .var _ _ =>
    exact .bind Scope.typeOf_ignoresReturns fun _ _ => trivial
  | .binary _ _ lhs rhs =>
    exact .bind (check_ignoresReturns lhs) fun _ _ =>
      .bind (check_ignoresReturns rhs) fun _ _ =>
        .bind BinOp.admit_ignoresReturns fun _ _ => trivial
  | .not _ operand | .input _ operand | .convert _ _ operand =>
    exact .bind (check_ignoresReturns operand) fun _ _ =>
      .bind (.require rfl) fun _ _ => trivial
  | .call _ callee args =>
    exact .bind Signatures.forCall_ignoresReturns fun sig _ =>
      .bind (checkArgs_ignoresReturns callee 0 sig.params args) fun _ _ =>
        trivial

/-- Checking arguments has nothing to do with returns. -/
theorem checkArgs_ignoresReturns (callee : Ident) (index : Nat)
    (params : List Ty) (args : List (Expr Span)) :
    (checkArgs sigs scope callee index params args).IgnoresReturns := by
  match params, args with
  | [], [] | [], _ :: _ | _ :: _, [] => exact trivial
  | _ :: params, arg :: args =>
    exact .bind (check_ignoresReturns arg) fun _ _ =>
      .bind (.require rfl) fun _ _ =>
        .bind (checkArgs_ignoresReturns callee (index + 1) params args)
          fun _ _ => trivial

end

theorem checkAll_ignoresReturns (es : List (Expr Span)) :
    (checkAll sigs scope es).IgnoresReturns := by
  induction es with
  | nil => exact trivial
  | cons e es ih =>
    exact .bind (check_ignoresReturns e) fun _ _ => .bind ih fun _ _ => trivial

end Expr

namespace Stmt

theorem checkCondition_ignoresReturns {construct : Construct}
    {cond : Expr Span} :
    (checkCondition sigs scope construct cond).IgnoresReturns :=
  .bind cond.check_ignoresReturns fun _ _ =>
    .bind (.require rfl) fun _ _ => trivial

theorem bind_ignoresReturns {name : Ident} {ty : Ty} {span : Span} :
    (Stmt.bind scope name ty span).IgnoresReturns := by
  unfold Stmt.bind
  cases scope.declare (.introduced name ty) with
  | ok => exact trivial
  | error => exact .refuse rfl

/-- **Checking a statement that control goes straight through has nothing to
do with returns**, and its summary says that there are none. -/
theorem check_ends_of_isStraight {expected : Expected} {stmt : Stmt Span}
    (h : stmt.isStraight = true) :
    (stmt.check sigs expected scope).Ends (·.returns = .never)
      (·.concernsReturns = false) := by
  match stmt with
  | .introduce _ _ _ init =>
    exact .bind init.check_ignoresReturns fun _ _ =>
      .bind (.require rfl) fun _ _ => .bind bind_ignoresReturns fun _ _ => rfl
  | .assign _ _ value =>
    exact .bind Scope.typeOf_ignoresReturns fun _ _ =>
      .bind value.check_ignoresReturns fun _ _ =>
        .bind (.require rfl) fun _ _ => rfl
  | .update _ _ _ operand =>
    exact .bind Scope.typeOf_ignoresReturns fun _ _ =>
      .bind (.require rfl) fun _ _ =>
        .bind operand.check_ignoresReturns fun _ _ =>
          .bind (.require rfl) fun _ _ => rfl
  | .pass _ => rfl
  | .print _ args =>
    exact .bind (Expr.checkAll_ignoresReturns args) fun _ _ => rfl
  | .call _ callee args =>
    exact .bind Signatures.forCall_ignoresReturns fun sig _ =>
      .bind (Expr.checkArgs_ignoresReturns callee 0 sig.params args)
        fun _ _ => .bind (.require rfl) fun _ _ => rfl
  | .ret _ _ | .retUnit _ | .ifElse _ _ _ _ | .whileLoop _ _ _ => cases h

end Stmt

namespace Definition

/-- Binding parameters has nothing to do with returns. -/
theorem bindParams_ignoresReturns {span : Span}
    {params : List (Ident × Ty)} :
    (bindParams scope span params).IgnoresReturns := by
  induction params generalizing scope with
  | nil => exact trivial
  | cons param params ih =>
    unfold bindParams
    split
    · exact ih
    · exact .refuse rfl

/-- Asking for distinct names has nothing to do with returns. -/
theorem expectDistinct_ignoresReturns {earlier : List Ident}
    {ds : List (Definition Span)} :
    (expectDistinct earlier ds).IgnoresReturns := by
  induction ds generalizing earlier with
  | nil => exact trivial
  | cons d ds ih =>
    unfold expectDistinct
    split
    · exact .refuse rfl
    · exact ih

end Definition

end Expressions

/-! ## Summaries that agree -/

/-- Whether a cause is that two returns have different types. -/
def Cause.IsConflict (cause : Cause) : Prop :=
  ∃ expected found, cause = .inconsistentReturns expected found

theorem Cause.not_isConflict {cause : Cause}
    (h : cause.concernsReturns = false) : ¬ cause.IsConflict := by
  rintro ⟨expected, found, rfl⟩
  cases h

theorem Check.Ends.noConflict {β : Type} {Good : β → Prop} {x : Check β}
    (h : x.Ends Good (·.concernsReturns = false)) :
    x.Ends Good (¬ ·.IsConflict) :=
  h.mono (fun _ => id) fun _ => Cause.not_isConflict

namespace Returns

/-- **A summary fits** what is expected of returns: if there are any, they
have the type that is expected. -/
def Fits (expected : Option Ty) (returns : Returns) : Prop :=
  ∀ ty, returns.ty? = some ty → expected = some ty

variable {expected : Option Ty} {first second : Returns} {ty found : Ty}
  {span : Span}

theorem fits_never : never.Fits expected := nofun

theorem fits_always_iff : (always ty).Fits expected ↔ expected = some ty :=
  ⟨fun h => h ty rfl, fun h _ hty => by rw [h, ← hty]; rfl⟩

theorem fits_maybe_iff : (maybe ty).Fits expected ↔ expected = some ty :=
  fits_always_iff

theorem Fits.demote (h : first.Fits expected) : first.demote.Fits expected := by
  cases first <;> exact h

theorem Fits.agree (h : (always ty).Fits expected)
    (h' : (always found).Fits expected) : ty = found :=
  Option.some.inj ((fits_always_iff.mp h).symm.trans (fits_always_iff.mp h'))

/-- **One piece after another**, with summaries that fit: they agree. -/
theorem sequence_ends (h : first.Fits expected) (h' : second.Fits expected) :
    (first.sequence second span).Ends (·.Fits expected)
      (¬ ·.IsConflict) := by
  cases first with
  | never => exact h'
  | always ty => exact .refuse nofun
  | maybe ty =>
    cases second with
    | never => exact h
    | always found | maybe found =>
      rw [sequence, if_pos (Fits.agree h' h)]
      exact h'

/-- **Two pieces side by side**, with summaries that fit: they agree. -/
theorem merge_ends (h : first.Fits expected) (h' : second.Fits expected) :
    (first.merge second span).Ends (·.Fits expected) (¬ ·.IsConflict) := by
  cases first with
  | never => exact h'.demote
  | always ty | maybe ty =>
    cases second with
    | never => exact h
    | always found | maybe found =>
      rw [merge, if_pos (Fits.agree h h')]
      exact h

end Returns

namespace Stmt

variable {sigs : Signatures} {expected : Expected}

open Returns

mutual

/-- **The summary of a statement fits**, and checking it ends in no
conflict. -/
theorem check_ends (scope : Scope) (stmt : Stmt Span) :
    (stmt.check sigs expected scope).Ends (·.returns.Fits expected)
      (¬ ·.IsConflict) := by
  match stmt with
  | .introduce _ _ _ _ | .assign _ _ _ | .update _ _ _ _ | .pass _
  | .print _ _ | .call _ _ _ =>
    refine (check_ends_of_isStraight rfl).noConflict.mono ?_ fun _ => id
    intro c hc
    rw [hc]
    exact fits_never
  | .ret _ value =>
    cases expected with
    | none => exact .refuse nofun
    | some ty =>
      exact .bind value.check_ignoresReturns.noConflict fun _ _ =>
        .bind (.require nofun) fun _ _ => fits_always_iff.mpr rfl
  | .retUnit _ =>
    cases expected with
    | none => exact .refuse nofun
    | some ty =>
      refine .bind (.require nofun) fun _ hty => fits_always_iff.mpr ?_
      rw [of_decide_eq_true hty]
  | .ifElse _ _ ⟨thenStmts, _⟩ ⟨elseStmts, _⟩ =>
    exact .bind checkCondition_ignoresReturns.noConflict fun _ _ =>
      .bind (checkAll_ends scope fits_never thenStmts) fun one hone =>
        .bind (checkAll_ends one.scope fits_never elseStmts) fun _ hother =>
          .bind (merge_ends hone hother) fun _ hreturns => hreturns
  | .whileLoop _ _ ⟨stmts, _⟩ =>
    exact .bind checkCondition_ignoresReturns.noConflict fun _ _ =>
      .bind (checkAll_ends scope fits_never stmts) fun _ hbody => hbody.demote

/-- **The summary of statements fits** if that of what comes before them
does, and checking them ends in no conflict. -/
theorem checkAll_ends (scope : Scope) {before : Returns}
    (hbefore : before.Fits expected) (stmts : List (Stmt Span)) :
    (checkAll sigs expected scope before stmts).Ends
      (·.returns.Fits expected) (¬ ·.IsConflict) := by
  match stmts with
  | [] => exact hbefore
  | stmt :: stmts =>
    exact .bind (check_ends scope stmt) fun first hfirst =>
      .bind (sequence_ends hbefore hfirst) fun _ hreturns =>
        .bind (checkAll_ends first.scope hreturns stmts) fun _ hrest => hrest

end

end Stmt

/-- **The summary of a block fits**, and checking it ends in no conflict. -/
theorem Block.check_ends {sigs : Signatures} {expected : Stmt.Expected}
    {scope : Scope} (block : Block (Stmt Span)) :
    (block.check sigs expected scope).Ends (·.returns.Fits expected)
      (¬ ·.IsConflict) :=
  .bind (Stmt.checkAll_ends scope Returns.fits_never block.stmts)
    fun _ hreturns => hreturns

/-! ## Definitions and programs -/

namespace Definition

variable {sigs : Signatures}

theorem expectReturn_ends {name : Ident} {ret : Ty} {returns : Returns}
    {span : Span} :
    (expectReturn name ret returns span).Ends (fun _ => True)
      (¬ ·.IsConflict) := by
  cases returns with
  | never | maybe => exact .refuse nofun
  | always ty =>
    exact Check.Ends.mono (.require nofun) (fun _ _ => trivial) fun _ => id

/-- **Checking a definition ends in no conflict.** -/
theorem check_ends (d : Definition Span) :
    (d.check sigs).Ends (fun _ => True) (¬ ·.IsConflict) :=
  .bind bindParams_ignoresReturns.noConflict fun _ _ =>
    .bind d.body.check_ends fun _ _ =>
      .bind expectReturn_ends fun _ _ => trivial

theorem checkAll_ends (ds : List (Definition Span)) :
    (checkAll sigs ds).Ends (fun _ => True) (¬ ·.IsConflict) := by
  induction ds with
  | nil => exact trivial
  | cons d ds ih =>
    exact .bind d.check_ends fun _ _ => .bind ih fun _ _ => trivial

end Definition

/-- **Checking a program ends in no conflict.** -/
theorem Program.check_ends (p : Program Span) :
    p.check.Ends (fun _ => True) (¬ ·.IsConflict) :=
  .bind Definition.expectDistinct_ignoresReturns.noConflict fun _ _ =>
    .bind (Definition.checkAll_ends p.definitions) fun _ _ =>
      .bind p.main.check_ends fun _ _ => trivial

/-- Under a definition there are three summaries that fit. -/
theorem Returns.Fits.cases {ty : Ty} {returns : Returns}
    (h : returns.Fits (some ty)) :
    returns = .never ∨ returns = .always ty ∨ returns = .maybe ty := by
  cases returns with
  | never => exact .inl rfl
  | always found =>
    cases fits_always_iff.mp h
    exact .inr (.inl rfl)
  | maybe found =>
    cases fits_maybe_iff.mp h
    exact .inr (.inr rfl)

theorem Returns.Fits.eq_never {returns : Returns} (h : returns.Fits none) :
    returns = .never := by
  cases returns with
  | never => rfl
  | always found => cases fits_always_iff.mp h
  | maybe found => cases fits_maybe_iff.mp h

/-- **Returns never conflict.** Whatever statement or block is checked under a
definition, in a program that is accepted or not, its summary is that it never
returns, always returns or maybe returns a value of the declared type; in the
main script it is that it never returns. So no program is refused because its
returns have different types, a body that always returns is found to return
the declared type, and the main script is found not to return. -/
theorem Program.returns_never_conflict :
    (∀ (sigs : Signatures) (ty : Ty) (scope : Scope),
      (∀ stmt c, Stmt.check sigs (some ty) scope stmt = .ok c →
        c.returns = .never ∨ c.returns = .always ty ∨ c.returns = .maybe ty)
      ∧ ∀ block c, Block.check sigs (some ty) scope block = .ok c →
        c.returns = .never ∨ c.returns = .always ty ∨ c.returns = .maybe ty)
    ∧ (∀ (sigs : Signatures) (scope : Scope),
      (∀ stmt c, Stmt.check sigs none scope stmt = .ok c →
        c.returns = .never)
      ∧ ∀ block c, Block.check sigs none scope block = .ok c →
        c.returns = .never)
    ∧ (∀ (p : Program Span) (expected found : Ty) (span : Span),
      p.check ≠ .error ⟨.inconsistentReturns expected found, span⟩)
    ∧ (∀ (sigs : Signatures) (d : Definition Span) (scope : Scope) body,
      d.body.check sigs (some d.ret) scope = .ok body →
        ∀ found, body.returns = .always found → found = d.ret)
    ∧ ∀ (p : Program Span) main,
      p.main.check p.signature? none (.empty entryPoint) = .ok main →
        main.returns = .never := by
  refine ⟨fun sigs ty scope => ⟨?_, ?_⟩, fun sigs scope => ⟨?_, ?_⟩, ?_, ?_,
    ?_⟩
  · exact fun stmt c h => ((Stmt.check_ends scope stmt).ok h).cases
  · exact fun block c h => (block.check_ends.ok h).cases
  · exact fun stmt c h => ((Stmt.check_ends scope stmt).ok h).eq_never
  · exact fun block c h => (block.check_ends.ok h).eq_never
  · exact fun p expected found span h =>
      p.check_ends.error h ⟨expected, found, rfl⟩
  · intro sigs d scope body h found hfound
    have hfits := d.body.check_ends.ok h
    rw [hfound, Returns.fits_always_iff] at hfits
    exact (Option.some.inj hfits).symm
  · exact fun p main h => (p.main.check_ends.ok h).eq_never

/-- A loop that may return an integer. -/
def Stmt.retrying : Stmt Span := .whileLoop .origin
  (.lit .origin (.bool true))
  (.spanning [.ret .origin (.lit .origin (.int 1))])

/-- A definition that goes on to return another integer. -/
def Definition.picking : Definition Span where
  name := "pick"
  params := []
  ret := .int
  body := .spanning [.retrying, .ret .origin (.lit .origin (.int 2))]
  nameSpan := .origin

/-- A program with a definition that goes on to return a text. -/
def Program.wavering : Program Span where
  definitions := [{ Definition.picking with
    body := .spanning [.retrying, .ret .origin (.lit ⟨7, 12⟩ (.str "one"))] }]
  main := .spanning [.pass .origin]

/-- The loop has a summary with the type of the definition, and so has the
body that goes on to return; the text is refused, but not because the loop
returns an integer. -/
theorem Program.returns_never_conflict_wavering :
    (∃ c, Stmt.retrying.check (fun _ => none) (some .int) (.empty "pick")
        = .ok c
      ∧ c.returns = .maybe .int
      ∧ (c.returns = .never ∨ c.returns = .always .int
        ∨ c.returns = .maybe .int))
    ∧ (∃ body, Definition.picking.body.check (fun _ => none) (some .int)
        (.empty "pick") = .ok body
      ∧ body.returns = .always .int
      ∧ ∀ found, body.returns = .always found → found = .int)
    ∧ wavering.check = .error ⟨.returnTypeMismatch .int .str, ⟨7, 12⟩⟩
    ∧ (∀ expected found span,
      wavering.check ≠ .error ⟨.inconsistentReturns expected found, span⟩)
    ∧ ∃ main, wavering.main.check wavering.signature? none
        (.empty entryPoint) = .ok main ∧ main.returns = .never := by
  obtain ⟨hdefinition, -, hprogram, hbody, hmain⟩ := returns_never_conflict
  exact ⟨⟨_, rfl, rfl, (hdefinition (fun _ => none) .int (.empty "pick")).1
      .retrying _ rfl⟩,
    ⟨_, rfl, rfl, hbody (fun _ => none) .picking (.empty "pick") _ rfl⟩, rfl,
    hprogram wavering, ⟨_, rfl, hmain wavering _ rfl⟩⟩

end Primer
