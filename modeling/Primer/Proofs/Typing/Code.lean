import Primer.Machine.Value
import Primer.Proofs.Emission.Places
import Primer.Proofs.Semantics.Soundness

/-!
# Typed code

The emitter notes a type with every temporary that it takes, and what it
stores there has that type or one that the machine cannot tell from it: a
truth value is an integer, and may be stored where an integer is expected.
This module says what it is for code to respect the types of its places, and
proves it of all emitted code.

Most instructions respect types or do not whatever comes before them
(`Instr.Suits`). A call is different: it takes the arguments that have been
set aside, and the instruction after it may fetch what was handed back. So
code is typed with respect to the types of the arguments set aside so far and
to the type of the value that was just handed back, if a call came last
(`Code.Typed`). Labels stand only where nothing is set aside, which is why a
jump finds code that is typed by itself (`Code.Typed.of_suffix`).
-/

namespace Primer

open SymbolTable

/-! ## Values and types -/

/-- **A value of the machine fits a type.** -/
def Value.Fits : Value → Ty → Prop
  | .int _, .int => True
  | .int n, .bool => n = 0 ∨ n = 1
  | .int n, .unit => n = 0
  | .str _, .str => True
  | .int _, .str | .str _, .int | .str _, .bool | .str _, .unit => False

/-- **A type is below another** if its values in the machine are values of the
other one. -/
inductive Ty.Below : Ty → Ty → Prop
  /-- The same type. -/
  | refl (ty : Ty) : Below ty ty
  /-- A truth value is an integer. -/
  | truth : Below .bool .int

/-- What fits a type fits any above it. -/
theorem Value.Fits.mono {v : Value} {ty ty' : Ty} (h : v.Fits ty)
    (hbelow : ty.Below ty') : v.Fits ty' := by
  cases hbelow with
  | refl => exact h
  | truth => cases v with
    | int n => trivial
    | str s => exact h

/-! ## Code -/

/-- **A place for values of a type**, under a name. -/
abbrev Places := Slot → Ty → Prop

/-- **An instruction suits the types of places** in a body with results of
type `ret`. Of instructions that have to do with calls, nothing is said here.
-/
def Instr.Suits (places : Places) (ret : Ty) : Instr → Prop
  | .label _ | .enter | .leave | .jump _ | .nop => True
  | .move dst src => ∃ ty ty', places src ty ∧ places dst ty' ∧ ty.Below ty'
  | .set dst value => ∃ ty, places dst ty ∧ (Value.int value).Fits ty
  | .arith _ dst lhs rhs => places dst .int ∧ places lhs .int
    ∧ places rhs .int
  | .branchCompare _ lhs rhs _ _ => places lhs .int ∧ places rhs .int
  | .branchZero _ src _ _ => ∃ ty, places src ty
  | .setResult src => places src ret
  | .loadString dst _ => places dst .str
  | .printInt src => places src .int
  | .printString src => places src .str
  | .readInt dst => places dst .int
  | .intToStr dst src => places dst .str ∧ places src .int
  | .strToInt dst src => places dst .int ∧ places src .str
  | .setArgument _ _ | .call _ | .fetchResult _ => False

/-- What suits the types of places names places only. -/
theorem Instr.Suits.exists_place {places : Places} {ret : Ty} {i : Instr}
    (h : i.Suits places ret) : ∀ slot ∈ i.slots, ∃ ty, places slot ty := by
  cases i with
  | label | enter | leave | jump | nop => exact nofun
  | move dst src =>
    obtain ⟨ty, ty', hsrc, hdst, -⟩ := h
    exact List.forall_mem_cons.mpr
      ⟨⟨ty', hdst⟩, List.forall_mem_singleton.mpr ⟨ty, hsrc⟩⟩
  | set =>
    obtain ⟨ty, hdst, -⟩ := h
    exact List.forall_mem_singleton.mpr ⟨ty, hdst⟩
  | arith =>
    exact List.forall_mem_cons.mpr ⟨⟨_, h.1⟩, List.forall_mem_cons.mpr
      ⟨⟨_, h.2.1⟩, List.forall_mem_singleton.mpr ⟨_, h.2.2⟩⟩⟩
  | branchCompare | intToStr | strToInt =>
    exact List.forall_mem_cons.mpr
      ⟨⟨_, h.1⟩, List.forall_mem_singleton.mpr ⟨_, h.2⟩⟩
  | branchZero => exact List.forall_mem_singleton.mpr h
  | setResult | loadString | printInt | printString | readInt =>
    exact List.forall_mem_singleton.mpr ⟨_, h⟩
  | setArgument | call | fetchResult => exact h.elim

/-- **Code is typed** where values of the types `tys` have been set aside as
arguments, and where, after a call, a value of type `got` was handed back. -/
inductive Code.Typed (sigs : Signatures) (places : Places) (ret : Ty) :
    List Ty → Option Ty → Code → Prop
  /-- No code. -/
  | nil {got : Option Ty} : Typed sigs places ret [] got []
  /-- An instruction that has nothing to do with calls. -/
  | cons {i : Instr} {code : Code} {got : Option Ty}
      (hi : i.Suits places ret) (h : Typed sigs places ret [] none code) :
    Typed sigs places ret [] got (i :: code)
  /-- One more argument. -/
  | setArgument {tys : List Ty} {ty : Ty} {src : Slot} {code : Code}
      {got : Option Ty} (hsrc : places src ty)
      (h : Typed sigs places ret (tys ++ [ty]) none code) :
    Typed sigs places ret tys got
      (.setArgument (.ofNat tys.length) src :: code)
  /-- A call with one argument for each parameter. -/
  | call {callee : Ident} {sig : Signature} {code : Code} {got : Option Ty}
      (hsig : sigs callee = some sig)
      (h : Typed sigs places ret [] (some sig.ret) code) :
    Typed sigs places ret sig.params got (.call callee :: code)
  /-- What was handed back. -/
  | fetchResult {dst : Slot} {ty ty' : Ty} {code : Code}
      (hdst : places dst ty') (hbelow : ty.Below ty')
      (h : Typed sigs places ret [] none code) :
    Typed sigs places ret [] (some ty) (.fetchResult dst :: code)

/-- **A typed piece of code**: typed code stays typed behind it. -/
def Code.IsTyped (sigs : Signatures) (places : Places) (ret : Ty)
    (code : Code) : Prop :=
  ∀ rest, Typed sigs places ret [] none rest →
    Typed sigs places ret [] none (code ++ rest)

namespace Code

variable {sigs : Signatures} {places : Places} {ret : Ty}

namespace Typed

/-- Code need not look at what was handed back. -/
theorem weaken {tys : List Ty} {code : Code}
    (h : Typed sigs places ret tys none code) (got : Option Ty) :
    Typed sigs places ret tys got code := by
  cases h with
  | nil => exact .nil
  | cons hi h => exact .cons hi h
  | setArgument hsrc h => exact .setArgument hsrc h
  | call hsig h => exact .call hsig h

/-- **What a jump finds is typed by itself.** -/
theorem of_suffix {tys : List Ty} {got : Option Ty} {code found : Code}
    {l : Label} (h : Typed sigs places ret tys got code)
    (hsuffix : .label l :: found <:+ code) :
    Typed sigs places ret [] none (.label l :: found) := by
  induction h with
  | nil => cases List.eq_nil_of_suffix_nil hsuffix
  | cons hi h ih =>
    rcases List.suffix_cons_iff.mp hsuffix with heq | hsuffix
    · cases heq
      exact .cons hi h
    · exact ih hsuffix
  | setArgument _ _ ih | call _ _ ih | fetchResult _ _ _ ih =>
    rcases List.suffix_cons_iff.mp hsuffix with heq | hsuffix
    · cases heq
    · exact ih hsuffix

/-- **Every name in typed code is that of a place.** -/
theorem exists_place {tys : List Ty} {got : Option Ty} {code : Code}
    (h : Typed sigs places ret tys got code) :
    ∀ i ∈ code, ∀ slot ∈ i.slots, ∃ ty, places slot ty := by
  induction h with
  | nil => exact nofun
  | cons hi _ ih => exact List.forall_mem_cons.mpr ⟨hi.exists_place, ih⟩
  | setArgument hsrc _ ih =>
    refine List.forall_mem_cons.mpr ⟨?_, ih⟩
    exact List.forall_mem_singleton.mpr ⟨_, hsrc⟩
  | call _ _ ih => exact List.forall_mem_cons.mpr ⟨nofun, ih⟩
  | fetchResult hdst _ _ ih =>
    refine List.forall_mem_cons.mpr ⟨?_, ih⟩
    exact List.forall_mem_singleton.mpr ⟨_, hdst⟩

/-- **Arguments set aside** one after the other. -/
theorem setArguments {temps : List Slot} {done tys : List Ty} {rest : Code}
    (htemps : List.Forall₂ places temps tys)
    (h : Typed sigs places ret (done ++ tys) none rest) :
    Typed sigs places ret done none
      (Primer.setArguments (.ofNat done.length) temps ++ rest) := by
  induction htemps generalizing done with
  | nil =>
    rw [List.append_nil] at h
    exact h
  | @cons temp ty temps tys hsrc _ ih =>
    have hindex : UInt64.ofNat done.length + 1
        = .ofNat (done ++ [ty]).length := by
      rw [List.length_append, UInt64.ofNat_add]
      rfl
    refine .setArgument hsrc ?_
    rw [hindex]
    refine ih ?_
    rw [List.append_assoc]
    exact h

end Typed

namespace IsTyped

variable {code rest : Code}

theorem nil : IsTyped sigs places ret [] := fun _ h => h

theorem append (h : IsTyped sigs places ret code)
    (h' : IsTyped sigs places ret rest) :
    IsTyped sigs places ret (code ++ rest) := by
  intro after hafter
  rw [List.append_assoc]
  exact h _ (h' _ hafter)

theorem cons {i : Instr} (hi : i.Suits places ret)
    (h : IsTyped sigs places ret rest) :
    IsTyped sigs places ret (i :: rest) := fun _ hafter =>
  .cons hi (h _ hafter)

theorem single {i : Instr} (hi : i.Suits places ret) :
    IsTyped sigs places ret [i] := cons hi nil

theorem label (l : Label) : IsTyped sigs places ret [.label l] :=
  single trivial

theorem jump (target l : Label) :
    IsTyped sigs places ret [.jump target, .label l] :=
  cons trivial (label l)

end IsTyped

end Code

/-! ## Emitted code -/

/-- A conversion that keeps the value is from a type below its result. -/
theorem Conversion.below_of_keeps {target : Conversion} {ty : Ty}
    (h : target.keeps ty = true) (hty : ty.IsConvertible) :
    ty.Below target.result := by
  rcases hty with rfl | rfl | rfl
  · cases target with
    | toInt => exact .refl .int
    | toStr => cases h
  · cases target with
    | toInt => cases h
    | toStr => exact .refl .str
  · cases target with
    | toInt => exact .truth
    | toStr => cases h

/-- What a destination needs for values of a type: a place of that type or of
one above it. -/
def Destination.Takes (places : Places) (ty : Ty) : Destination → Prop
  | .store dst => ∃ ty', places dst ty' ∧ ty.Below ty'
  | .branch _ _ => True

namespace Destination.Takes

variable {places : Places} {ty ty' : Ty} {dst : Slot}

theorem place (h : places dst ty) : (Destination.store dst).Takes places ty :=
  ⟨ty, h, .refl ty⟩

/-- What takes values of a type takes those of a type below it. -/
theorem below (h : (Destination.store dst).Takes places ty')
    (hbelow : ty.Below ty') : (Destination.store dst).Takes places ty := by
  obtain ⟨above, hplace, habove⟩ := h
  refine ⟨above, hplace, ?_⟩
  cases hbelow with
  | refl => exact habove
  | truth =>
    cases habove
    exact .truth

theorem int (h : (Destination.store dst).Takes places .int) :
    places dst .int := by
  obtain ⟨above, hplace, habove⟩ := h
  cases habove
  exact hplace

theorem str (h : (Destination.store dst).Takes places .str) :
    places dst .str := by
  obtain ⟨above, hplace, habove⟩ := h
  cases habove
  exact hplace

theorem set {n : Int64} (h : (Destination.store dst).Takes places ty)
    (hn : (Value.int n).Fits ty) {ret : Ty} :
    (Instr.set dst n).Suits places ret := by
  obtain ⟨above, hplace, habove⟩ := h
  exact ⟨above, hplace, hn.mono habove⟩

theorem move {src : Slot} (h : (Destination.store dst).Takes places ty)
    (hsrc : places src ty) {ret : Ty} :
    (Instr.move dst src).Suits places ret := by
  obtain ⟨above, hplace, habove⟩ := h
  exact ⟨ty, above, hsrc, hplace, habove⟩

end Destination.Takes

open Code.IsTyped

/-- **The variables of a context are places** of a scope. -/
def SymbolTable.HoldsAll (symbols : SymbolTable) (id : ScopeId)
    (Γ : Context) : Prop :=
  ∀ b ∈ Γ, symbols.HasPlace id b.1 b.2

namespace Expr

variable {site : Site} {symbols : SymbolTable} {sigs : Signatures}
  {Γ : Context} {ret : Ty}

mutual

/-- **The code of a typed expression is typed.** -/
theorem Emits.isTyped {e : Expr Judged} {dest : Destination}
    {t t' : SymbolTable} {code : Code} (h : e.Emits site dest t code t')
    (hs : Stretch symbols site.scope t t')
    (hΓ : symbols.HoldsAll site.scope Γ) {ty : Ty} (hty : e.HasType sigs Γ ty)
    (hdest : dest.Takes (symbols.HasPlace site.scope) ty) :
    code.IsTyped sigs (symbols.HasPlace site.scope) ret := by
  match h with
  | .int => cases hty with
    | lit => exact single (hdest.set trivial)
  | .str _ => cases hty with
    | lit => exact single hdest.str
  | .unit => cases hty with
    | lit => exact single (hdest.set rfl)
  | @Emits.boolStore _ _ b _ _ => cases hty with
    | lit =>
      refine single (hdest.set ?_)
      cases b
      · exact .inl rfl
      · exact .inr rfl
  | .boolBranch => exact single trivial
  | .varStore => cases hty with
    | var _ hname => exact single (hdest.move (hΓ _ hname))
  | .varBranch => cases hty with
    | var _ hname => exact single ⟨_, hΓ _ hname⟩
  | .arith hleft hlhs hright hrhs => cases hty with
    | arith _ hl hr =>
      -- the temporaries have the noted types, in the table at the end
      rw [hl.ty_eq] at hleft
      rw [hr.ty_eq] at hright
      obtain ⟨⟨hplace, sl⟩, hplace', sr⟩ :=
        hs.operands hleft hlhs.takes.grows hright hrhs.takes.grows
      exact ((hlhs.isTyped sl hΓ hl (.place hplace)).append
        (hrhs.isTyped sr hΓ hr (.place hplace'))).append
          (single ⟨hdest.int, hplace, hplace'⟩)
  | .compare hleft hlhs hright hrhs => cases hty with
    | compare _ hl hr =>
      rw [hl.ty_eq] at hleft
      rw [hr.ty_eq] at hright
      obtain ⟨⟨hplace, sl⟩, hplace', sr⟩ :=
        hs.operands hleft hlhs.takes.grows hright hrhs.takes.grows
      exact ((hlhs.isTyped sl hΓ hl (.place hplace)).append
        (hrhs.isTyped sr hΓ hr (.place hplace'))).append
          (single ⟨hplace, hplace'⟩)
  | .and hnext hlhs hrhs | .or hnext hlhs hrhs => cases hty with
    | logic _ hl hr =>
      have hlabel := (Takes.label (by simp) hnext).grows
      obtain ⟨-, hs⟩ := hs.halves hlabel
        (hlhs.takes.grows.trans hrhs.takes.grows)
      obtain ⟨sl, sr⟩ := hs.halves hlhs.takes.grows hrhs.takes.grows
      exact ((hlhs.isTyped sl hΓ hl trivial).append (label _)).append
        (hrhs.isTyped sr hΓ hr trivial)
  | .not hoperand => cases hty with
    | not _ ho => exact hoperand.isTyped hs hΓ ho trivial
  | .input htemp hprompt => cases hty with
    | input _ hp =>
      obtain ⟨hplace, hs⟩ := hs.withTemporary htemp hprompt.takes.grows
      exact (hprompt.isTyped hs hΓ hp (.place hplace)).append
        (cons hplace (single hdest.int))
  | .strToInt hstr htemp hoperand => cases hty with
    | convert _ _ ho =>
      obtain rfl := ho.ty_eq.symm.trans hstr
      obtain ⟨hplace, hs⟩ := hs.withTemporary htemp hoperand.takes.grows
      exact (hoperand.isTyped hs hΓ ho (.place hplace)).append
        (single ⟨hdest.int, hplace⟩)
  | .intToStr hint htemp hoperand => cases hty with
    | convert _ _ ho =>
      obtain rfl := ho.ty_eq.symm.trans hint
      obtain ⟨hplace, hs⟩ := hs.withTemporary htemp hoperand.takes.grows
      exact (hoperand.isTyped hs hΓ ho (.place hplace)).append
        (single ⟨hdest.str, hplace⟩)
  | .boolToStr hbool hchoice => cases hty with
    | convert _ _ ho =>
      obtain rfl := ho.ty_eq.symm.trans hbool
      exact hchoice.isTyped hs hΓ ho hdest.str hdest.str
  | .keep hkeeps hoperand => cases hty with
    | convert _ hconv ho =>
      rw [ho.ty_eq] at hkeeps
      exact hoperand.isTyped hs hΓ ho
        (hdest.below (Conversion.below_of_keeps hkeeps hconv))
  | .call hargs => cases hty with
    | call _ hsig ha =>
      obtain ⟨above, hplace, habove⟩ := hdest
      obtain ⟨hcode, htemps⟩ := hargs.isTyped hs hΓ ha
      intro rest hrest
      rw [List.append_assoc, List.append_assoc]
      exact hcode _ (Code.Typed.setArguments htemps
        (.call hsig (.fetchResult hplace habove hrest)))
  | .branchStored _ htemp hvalue =>
    rw [hty.ty_eq] at htemp
    obtain ⟨hplace, hs⟩ := hs.withTemporary htemp hvalue.takes.grows
    exact (hvalue.isTyped hs hΓ hty (.place hplace)).append
      (single ⟨_, hplace⟩)
  | .storeBranched hbranched hflag hchoice =>
    obtain rfl := hty.eq_bool hbranched
    obtain ⟨hplace, hs⟩ :=
      hs.withTemporary hflag (hchoice.takes rfl rfl).grows
    exact (hchoice.isTyped hs hΓ hty ⟨_, hplace, .inr rfl⟩
      ⟨_, hplace, .inl rfl⟩).append (single (hdest.move hplace))

/-- A choice between two instructions that suit the types is typed. -/
theorem EmitsChoice.isTyped {e : Expr Judged} {onTrue onFalse : Instr}
    {t t' : SymbolTable} {code : Code}
    (h : e.EmitsChoice site onTrue onFalse t code t')
    (hs : Stretch symbols site.scope t t')
    (hΓ : symbols.HoldsAll site.scope Γ) (hty : e.HasType sigs Γ .bool)
    (htrue : onTrue.Suits (symbols.HasPlace site.scope) ret)
    (hfalse : onFalse.Suits (symbols.HasPlace site.scope) ret) :
    code.IsTyped sigs (symbols.HasPlace site.scope) ret := by
  match h with
  | .mk hyes hno hjoin he =>
    have hlabels := Takes.labels (by simp) hyes hno hjoin
    obtain ⟨-, hs⟩ := hs.halves hlabels.grows he.takes.grows
    exact (he.isTyped hs hΓ hty trivial).append
      (cons trivial (cons htrue (cons trivial (cons trivial
        (cons hfalse (single trivial))))))

/-- The code of typed arguments is typed, and the temporaries are places of
their types. -/
theorem EmitsArgs.isTyped {args : List (Expr Judged)} {temps : List Slot}
    {t t' : SymbolTable} {code : Code}
    (h : EmitsArgs site args temps t code t')
    (hs : Stretch symbols site.scope t t')
    (hΓ : symbols.HoldsAll site.scope Γ) {tys : List Ty}
    (hty : HaveTypes sigs Γ args tys) :
    code.IsTyped sigs (symbols.HasPlace site.scope) ret
      ∧ List.Forall₂ (symbols.HasPlace site.scope) temps tys := by
  match h with
  | .nil => cases hty with
    | nil => exact ⟨.nil, .nil⟩
  | .cons htemp harg hargs => cases hty with
    | cons ha has =>
      rw [ha.ty_eq] at htemp
      obtain ⟨sa, sargs⟩ := hs.halves
        ((Grows.temporary htemp).trans harg.takes.grows) hargs.takes.grows
      obtain ⟨hplace, sa⟩ := sa.withTemporary htemp harg.takes.grows
      obtain ⟨hrest, htemps⟩ := hargs.isTyped sargs hΓ has
      exact ⟨(harg.isTyped sa hΓ ha (.place hplace)).append hrest,
        .cons hplace htemps⟩

end

end Expr

section Printing

variable {site : Site} {symbols : SymbolTable} {sigs : Signatures}
  {Γ : Context} {ret : Ty} {t t' : SymbolTable} {code : Code}

theorem Site.EmitsText.isTyped {text : Label}
    (h : site.EmitsText text t code t')
    (hs : Stretch symbols site.scope t t') :
    code.IsTyped sigs (symbols.HasPlace site.scope) ret := by
  cases h with
  | mk htemp =>
    have hplace := hs.hasPlace htemp
    exact cons hplace (single hplace)

/-- **The code that writes a typed value is typed.** -/
theorem Expr.EmitsPrint.isTyped {arg : Expr Judged}
    (h : arg.EmitsPrint site t code t')
    (hs : Stretch symbols site.scope t t')
    (hΓ : symbols.HoldsAll site.scope Γ) {ty : Ty}
    (hty : arg.HasType sigs Γ ty) :
    code.IsTyped sigs (symbols.HasPlace site.scope) ret := by
  cases h with
  | int hint htemp harg =>
    obtain rfl := hty.ty_eq.symm.trans hint
    obtain ⟨hplace, hs⟩ := hs.withTemporary htemp harg.takes.grows
    exact (harg.isTyped hs hΓ hty (.place hplace)).append (single hplace)
  | str hstr htemp harg =>
    obtain rfl := hty.ty_eq.symm.trans hstr
    obtain ⟨hplace, hs⟩ := hs.withTemporary htemp harg.takes.grows
    exact (harg.isTyped hs hΓ hty (.place hplace)).append (single hplace)
  | bool hbool htemp hchoice =>
    obtain rfl := hty.ty_eq.symm.trans hbool
    obtain ⟨hplace, hs⟩ :=
      hs.withTemporary htemp (hchoice.takes rfl rfl).grows
    exact (hchoice.isTyped hs hΓ hty hplace hplace).append (single hplace)
  | unit hunit hunused harg hprint =>
    obtain rfl := hty.ty_eq.symm.trans hunit
    obtain ⟨hplace, hs⟩ := hs.withTemporary hunused
      (harg.takes.grows.trans hprint.takes.grows)
    obtain ⟨sa, sp⟩ := hs.halves harg.takes.grows hprint.takes.grows
    exact (harg.isTyped sa hΓ hty (.place hplace)).append
      (hprint.isTyped sp)

/-- The code that writes more typed values is typed. -/
theorem Site.EmitsMore.isTyped {args : List (Expr Judged)}
    (h : site.EmitsMore args t code t')
    (hs : Stretch symbols site.scope t t')
    (hΓ : symbols.HoldsAll site.scope Γ) {tys : List Ty}
    (hty : Expr.HaveTypes sigs Γ args tys) :
    code.IsTyped sigs (symbols.HasPlace site.scope) ret := by
  induction h generalizing tys with
  | nil => exact .nil
  | cons hspace harg hargs ih => cases hty with
    | cons ha has =>
      obtain ⟨sspace, hs⟩ := hs.halves hspace.takes.grows
        (harg.takes.grows.trans hargs.takes.grows)
      obtain ⟨sarg, hs⟩ := hs.halves harg.takes.grows hargs.takes.grows
      exact ((hspace.isTyped sspace).append (harg.isTyped sarg hΓ ha)).append
        (ih hs has)

/-- The code that writes typed values is typed. -/
theorem Site.EmitsLine.isTyped {args : List (Expr Judged)}
    (h : site.EmitsLine args t code t')
    (hs : Stretch symbols site.scope t t')
    (hΓ : symbols.HoldsAll site.scope Γ) {tys : List Ty}
    (hty : Expr.HaveTypes sigs Γ args tys) :
    code.IsTyped sigs (symbols.HasPlace site.scope) ret := by
  cases h with
  | nil => exact .nil
  | cons harg hargs => cases hty with
    | cons ha has =>
      obtain ⟨sarg, hs⟩ := hs.halves harg.takes.grows hargs.takes.grows
      exact (harg.isTyped sarg hΓ ha).append (hargs.isTyped hs hΓ has)

end Printing

theorem SymbolTable.HoldsAll.mono {symbols : SymbolTable} {id : ScopeId}
    {Γ Γ' : Context} (h : symbols.HoldsAll id Γ') (hsub : Γ ⊆ Γ') :
    symbols.HoldsAll id Γ := fun b hb => h b (hsub hb)

namespace Stmt

variable {site : Site} {symbols : SymbolTable} {sigs : Signatures}
  {expected : Option Ty} {ret : Ty}

mutual

/-- **The code of a typed statement is typed.** -/
theorem Emits.isTyped (hret : ∀ ty, expected = some ty → ty = ret)
    {stmt : Stmt Judged} {t t' : SymbolTable} {code : Code}
    (h : stmt.Emits site t code t') (hs : Stretch symbols site.scope t t')
    {Γ Γ' : Context} {returns : Returns}
    (heffect : stmt.HasEffect sigs expected Γ Γ' returns)
    (hΓ' : symbols.HoldsAll site.scope Γ') :
    code.IsTyped sigs (symbols.HasPlace site.scope) ret := by
  have hΓ := hΓ'.mono heffect.context.1
  match h with
  | .introduce hinit => cases heffect with
    | introduce hi =>
      exact hinit.isTyped hs hΓ hi (.place (hΓ' _ (List.mem_cons_self ..)))
  | .assign hvalue => cases heffect with
    | assign hname hv => exact hvalue.isTyped hs hΓ hv (.place (hΓ _ hname))
  | .update hcurrent htemp hoperand => cases heffect with
    | update hname ho =>
      rw [ho.ty_eq] at htemp
      have hplace := hΓ _ hname
      obtain ⟨⟨hplaceCurrent, -⟩, hplaceTemp, hs⟩ :=
        hs.operands hcurrent (.refl _) htemp hoperand.takes.grows
      exact ((single (Destination.Takes.move (.place hplaceCurrent)
        hplace)).append (hoperand.isTyped hs hΓ ho (.place hplaceTemp))).append
          (single ⟨hplace, hplaceCurrent, hplaceTemp⟩)
  | .pass => exact single trivial
  | .print hargs hnewline => cases heffect with
    | print ha =>
      obtain ⟨sa, sn⟩ := hs.halves hargs.takes.grows hnewline.takes.grows
      exact (hargs.isTyped sa hΓ ha).append (hnewline.isTyped sn)
  | .ret htemp hvalue => cases heffect with
    | ret hexpected hv =>
      obtain rfl := hret _ hexpected
      rw [hv.ty_eq] at htemp
      obtain ⟨hplace, hs⟩ := hs.withTemporary htemp hvalue.takes.grows
      exact (hvalue.isTyped hs hΓ hv (.place hplace)).append
        (cons hplace (single trivial))
  | .retUnit htemp => cases heffect with
    | retUnit hexpected =>
      obtain rfl := hret _ hexpected
      have hplace := hs.hasPlace htemp
      exact cons ⟨_, hplace, rfl⟩ (cons hplace (single trivial))
  | .call hargs => cases heffect with
    | call hsig ha =>
      obtain ⟨hcode, htemps⟩ := hargs.isTyped hs hΓ ha
      intro rest hrest
      rw [List.append_assoc, List.append_assoc]
      exact hcode _ (Code.Typed.setArguments htemps
        (.call hsig (hrest.weaken _)))
  | .ifElse hthenLabel helseLabel hdone hcond hthen helse =>
    cases heffect with
    | ifElse hc hethen heelse =>
      have hlabels := Takes.labels (by simp) hthenLabel helseLabel hdone
      obtain ⟨-, hs⟩ := hs.halves hlabels.grows
        (hcond.takes.grows.trans (hthen.takes.grows.trans helse.takes.grows))
      obtain ⟨sc, hs⟩ := hs.halves hcond.takes.grows
        (hthen.takes.grows.trans helse.takes.grows)
      obtain ⟨st, se⟩ := hs.halves hthen.takes.grows helse.takes.grows
      have hΓ₁ := hΓ'.mono heelse.context.1
      exact (((((hcond.isTyped sc hΓ hc trivial).append (label _)).append
        (hthen.isTyped hret st hethen hΓ₁)).append
          (jump _ _)).append
            (helse.isTyped hret se heelse hΓ')).append (label _)
  | .whileLoop hagain hstart hdone hcond hbody => cases heffect with
    | whileLoop hc hebody =>
      have hlabels := Takes.labels (by simp) hagain hstart hdone
      obtain ⟨-, hs⟩ := hs.halves hlabels.grows
        (hcond.takes.grows.trans hbody.takes.grows)
      obtain ⟨sc, sb⟩ := hs.halves hcond.takes.grows hbody.takes.grows
      exact ((((label _).append (hcond.isTyped sc hΓ hc trivial)).append
        (label _)).append (hbody.isTyped hret sb hebody hΓ')).append
          (jump _ _)

/-- **The code of typed statements is typed.** -/
theorem EmitsAll.isTyped (hret : ∀ ty, expected = some ty → ty = ret)
    {stmts : List (Stmt Judged)} {t t' : SymbolTable} {code : Code}
    (h : EmitsAll site stmts t code t')
    (hs : Stretch symbols site.scope t t') {Γ Γ' : Context}
    {before returns : Returns}
    (heffect : HaveEffect sigs expected Γ before stmts Γ' returns)
    (hΓ' : symbols.HoldsAll site.scope Γ') :
    code.IsTyped sigs (symbols.HasPlace site.scope) ret := by
  match h with
  | .nil => exact .nil
  | .cons hstmt hstmts => cases heffect with
    | cons hefirst _ herest =>
      obtain ⟨sf, sr⟩ := hs.halves hstmt.takes.grows hstmts.takes.grows
      have hΓ₁ := hΓ'.mono herest.context.1
      exact (hstmt.isTyped hret sf hefirst hΓ₁).append
        (hstmts.isTyped hret sr herest hΓ')

end

end Stmt

/-- **The code of a routine is typed**, if the variables of its body are
places of its scope. -/
theorem Routine.EmittedFor.typed {r : Routine} {symbols : SymbolTable}
    {constants : Constants} {d : Definition Judged} {sigs : Signatures}
    (h : r.EmittedFor symbols constants d) {expected : Option Ty}
    {Γ : Context} {returns : Returns}
    (hret : ∀ ty, expected = some ty → ty = d.ret)
    (hbody : Stmt.HaveEffect sigs expected d.params .never d.body.stmts Γ
      returns)
    (hΓ : symbols.HoldsAll r.prototype.scope Γ) :
    r.code.Typed sigs (symbols.HasPlace r.prototype.scope) r.prototype.ret []
      none := by
  obtain ⟨site, code, t, t', hscope, -, hcode, hemits, hs⟩ := h.body
  rw [hcode, h.ret, ← hscope]
  rw [← hscope] at hΓ
  refine .cons trivial (.cons trivial ?_)
  exact hemits.isTyped hret hs hbody hΓ _
    (.cons trivial (.cons trivial .nil))

end Primer
