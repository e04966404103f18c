import Primer.Proofs.Assignment
import Primer.Proofs.Layout
import Primer.Proofs.Machine.Typing
import Primer.Proofs.Reordering.Emission

/-!
# Temporaries

A temporary carries one value from the instruction that computes it to the
instruction that wants it. The code of a program keeps to that: each temporary
is read in one place at most, and on every path to that place it has been
written before. Nor does a body mention the temporaries of another one
(`Program.compile_temporaries`).

The first is proved as it was proved of labels that none is defined twice: the
places that a piece of code reads are made up while it is emitted, or they are
variables, and no number is given out twice (`SymbolTable.Supplies`). The
second holds since emitted code is careful. The code of an expression writes
its destination, whichever of its branches are taken, and all that has been
written before it is still known behind it and at the labels that it leaves
for (`Expr.Emits.isCareful`). Statements need not hand on anything, so nothing
is marked at their labels (`Stmt.Emits.isCareful`).
-/

namespace Primer

open SymbolTable

/-! ## Places that are read once -/

namespace SymbolTable

variable {t t₁ t₂ t₃ t' : SymbolTable} {id : ScopeId}

/-- **Places that are supplied while a table grows**: apart from variables,
they are made up then, and none of them occurs twice. -/
structure Supplies (t t' : SymbolTable) (places : List Slot) : Prop where
  /-- The counter does not go back. -/
  counter_le : t.counter ≤ t'.counter
  /-- The places are made up. -/
  made : ∀ x ∈ places, ¬ Ident.Plain x → Made t.counter t'.counter x
  /-- None occurs twice. -/
  count_le : ∀ x, ¬ Ident.Plain x → places.count x ≤ 1

namespace Supplies

variable {places others : List Slot}

theorem grows (h : Grows id t t') : Supplies t t' [] where
  counter_le := h.counter_le
  made := nofun
  count_le _ _ := Nat.zero_le 1

theorem refl (t : SymbolTable) : Supplies t t [] := by
  have hgrows : Grows .global t t := .refl t
  exact grows hgrows

/-- **First these places, then those.** -/
theorem trans (h : Supplies t t₁ places) (h' : Supplies t₁ t₂ others) :
    Supplies t t₂ (places ++ others) where
  counter_le := Nat.le_trans h.counter_le h'.counter_le
  made x hx hplain := by
    rcases List.mem_append.mp hx with hx | hx
    · exact (h.made x hx hplain).mono (Nat.le_refl _) h'.counter_le
    · exact (h'.made x hx hplain).mono h.counter_le (Nat.le_refl _)
  count_le x hplain := by
    rw [List.count_append]
    by_cases hx : x ∈ places
    · -- the others have greater numbers
      have hnot : x ∉ others := fun hx' => absurd
        ((h.made x hx hplain).disjoint (h'.made x hx' hplain))
        (Nat.lt_irrefl _)
      rw [List.count_eq_zero.mpr hnot]
      exact h.count_le x hplain
    · rw [List.count_eq_zero.mpr hx, Nat.zero_add]
      exact h'.count_le x hplain

/-- The order does not matter. -/
theorem congr (h : Supplies t t' places)
    (hcount : ∀ x, others.count x = places.count x) :
    Supplies t t' others where
  counter_le := h.counter_le
  made x hx := h.made x <| by
    rwa [← List.count_pos_iff, ← hcount, List.count_pos_iff]
  count_le x := by
    rw [hcount x]
    exact h.count_le x

theorem temporary {ty : Ty} {temp : Slot}
    (h : t.freshTemporary id ty = (temp, t')) : Supplies t t' [temp] where
  counter_le := (Grows.temporary h).counter_le
  made := List.forall_mem_singleton.mpr fun _ => made_freshTemporary h
  count_le _ _ := List.count_le_length

theorem plain {name : Ident} (h : Ident.Plain name) :
    Supplies t t [name] where
  counter_le := Nat.le_refl _
  made := List.forall_mem_singleton.mpr fun hplain => absurd h hplain
  count_le _ _ := List.count_le_length

/-- **A temporary that is read last.** -/
theorem last {ty : Ty} {temp : Slot}
    (htemp : t.freshTemporary id ty = (temp, t₁))
    (h : Supplies t₁ t' places) : Supplies t t' (places ++ [temp]) :=
  ((temporary htemp).trans h).congr fun x => by
    rw [List.count_append, List.count_append, Nat.add_comm]

/-- **Two operands**, the temporaries of which are read last. -/
theorem operands {ty ty' : Ty} {left right : Slot}
    (hleft : t.freshTemporary id ty = (left, t₁))
    (hlhs : Supplies t₁ t₂ places)
    (hright : t₂.freshTemporary id ty' = (right, t₃))
    (hrhs : Supplies t₃ t' others) :
    Supplies t t' (places ++ others ++ [left, right]) :=
  ((last hleft hlhs).trans (last hright hrhs)).congr fun x => by
    rw [← List.singleton_append (l := [right])]
    simp only [List.count_append]
    omega

end Supplies

end SymbolTable

@[simp] theorem reads_setArguments (index : UInt64) (temps : List Slot) :
    (setArguments index temps).reads = temps := by
  induction temps generalizing index with
  | nil => rfl
  | cons temp temps ih =>
    rw [setArguments, Code.reads_cons, ih]
    rfl

namespace Expr

variable {site : Site} {sigs : Signatures} {Γ : Context}

mutual

/-- **The code of an expression reads each of its temporaries once**, and all
of them were taken for it. -/
theorem Emits.supplies {e : Expr Judged} {dest : Destination}
    {t t' : SymbolTable} {code : Code} (h : e.Emits site dest t code t')
    {ty : Ty} (hty : e.HasType sigs Γ ty)
    (hΓ : ∀ b ∈ Γ, Ident.Plain b.1) : Supplies t t' code.reads := by
  match h with
  | .int | .unit | .boolStore | .boolBranch => exact .refl _
  | .str htext =>
    have hgrows : Grows site.scope t t' := .intern htext
    exact .grows hgrows
  | .varStore | .varBranch => cases hty with
    | var _ hname => exact .plain (hΓ _ hname)
  | .arith hleft hlhs hright hrhs => cases hty with
    | arith _ hl hr =>
      rw [Code.reads_append, Code.reads_append]
      exact .operands hleft (hlhs.supplies hl hΓ) hright (hrhs.supplies hr hΓ)
  | .compare hleft hlhs hright hrhs => cases hty with
    | compare _ hl hr =>
      rw [Code.reads_append, Code.reads_append]
      exact .operands hleft (hlhs.supplies hl hΓ) hright (hrhs.supplies hr hΓ)
  | .and hnext hlhs hrhs | .or hnext hlhs hrhs => cases hty with
    | logic _ hl hr =>
      rw [Code.reads_append, Code.reads_append]
      have hlabel := Supplies.grows (Takes.label (by simp) hnext).grows
      exact ((hlabel.trans (hlhs.supplies hl hΓ)).trans (.refl _)).trans
        (hrhs.supplies hr hΓ)
  | .not hoperand => cases hty with
    | not _ ho => exact hoperand.supplies ho hΓ
  | .input htemp hprompt => cases hty with
    | input _ hp =>
      rw [Code.reads_append]
      exact .last htemp (hprompt.supplies hp hΓ)
  | .strToInt _ htemp hoperand | .intToStr _ htemp hoperand => cases hty with
    | convert _ _ ho =>
      rw [Code.reads_append]
      exact .last htemp (hoperand.supplies ho hΓ)
  | .boolToStr _ hchoice => cases hty with
    | convert _ _ ho => exact hchoice.supplies ho hΓ rfl rfl
  | .keep _ hoperand => cases hty with
    | convert _ _ ho => exact hoperand.supplies ho hΓ
  | .call hargs => cases hty with
    | call _ _ ha =>
      rw [Code.reads_append, Code.reads_append, reads_setArguments]
      exact (hargs.supplies ha hΓ).trans (.refl _)
  | .branchStored _ htemp hvalue =>
    rw [Code.reads_append]
    exact .last htemp (hvalue.supplies hty hΓ)
  | .storeBranched _ hflag hchoice =>
    rw [Code.reads_append]
    exact .last hflag (hchoice.supplies hty hΓ rfl rfl)

/-- A choice between two instructions that read nothing reads what its
condition reads. -/
theorem EmitsChoice.supplies {e : Expr Judged} {onTrue onFalse : Instr}
    {t t' : SymbolTable} {code : Code}
    (h : e.EmitsChoice site onTrue onFalse t code t') {ty : Ty}
    (hty : e.HasType sigs Γ ty) (hΓ : ∀ b ∈ Γ, Ident.Plain b.1)
    (htrue : onTrue.reads = []) (hfalse : onFalse.reads = []) :
    Supplies t t' code.reads := by
  match h with
  | .mk hyes hno hjoin he =>
    have hlabels := Takes.labels (by simp) hyes hno hjoin
    refine ((Supplies.grows hlabels.grows).trans
      (he.supplies hty hΓ)).congr fun x => ?_
    simp only [Code.reads_append, Code.reads_cons, Code.reads_nil, htrue,
      hfalse]
    simp [Instr.reads]

/-- The code of arguments reads each of its temporaries once, and it does not
read those of the arguments. -/
theorem EmitsArgs.supplies {args : List (Expr Judged)} {temps : List Slot}
    {t t' : SymbolTable} {code : Code}
    (h : EmitsArgs site args temps t code t') {tys : List Ty}
    (htys : HaveTypes sigs Γ args tys) (hΓ : ∀ b ∈ Γ, Ident.Plain b.1) :
    Supplies t t' (code.reads ++ temps) := by
  match h with
  | .nil => exact .refl _
  | .cons htemp harg hargs => cases htys with
    | cons ha has =>
      have hfirst := Supplies.last htemp (harg.supplies ha hΓ)
      refine (hfirst.trans (hargs.supplies has hΓ)).congr fun x => ?_
      rw [Code.reads_append, ← List.singleton_append]
      simp only [List.count_append]
      omega

end

end Expr

section Print

variable {site : Site} {sigs : Signatures} {Γ : Context}

theorem Site.EmitsText.supplies {text : Label} {t t' : SymbolTable}
    {code : Code} (h : site.EmitsText text t code t') :
    Supplies t t' code.reads := by
  cases h with
  | mk htemp => exact .temporary htemp

/-- The code that writes a value reads each of its temporaries once. -/
theorem Expr.EmitsPrint.supplies {arg : Expr Judged} {t t' : SymbolTable}
    {code : Code} (h : arg.EmitsPrint site t code t') {ty : Ty}
    (hty : arg.HasType sigs Γ ty) (hΓ : ∀ b ∈ Γ, Ident.Plain b.1) :
    Supplies t t' code.reads := by
  cases h with
  | int _ htemp harg | str _ htemp harg =>
    rw [Code.reads_append]
    exact .last htemp (harg.supplies hty hΓ)
  | bool _ htemp hchoice =>
    rw [Code.reads_append]
    exact .last htemp (hchoice.supplies hty hΓ rfl rfl)
  | unit _ hunused harg hprint =>
    rw [Code.reads_append]
    have hcode := (Supplies.grows (Grows.temporary hunused)).trans
      (harg.supplies hty hΓ)
    exact hcode.trans hprint.supplies

/-- The code that writes more values reads each of its temporaries once. -/
theorem Site.EmitsMore.supplies {args : List (Expr Judged)}
    {t t' : SymbolTable} {code : Code} (h : site.EmitsMore args t code t')
    {tys : List Ty} (htys : Expr.HaveTypes sigs Γ args tys)
    (hΓ : ∀ b ∈ Γ, Ident.Plain b.1) : Supplies t t' code.reads := by
  induction h generalizing tys with
  | nil => exact .refl _
  | cons hspace harg _ ih => cases htys with
    | cons ha has =>
      rw [Code.reads_append, Code.reads_append]
      exact (hspace.supplies.trans (harg.supplies ha hΓ)).trans (ih has)

/-- The code that writes values reads each of its temporaries once. -/
theorem Site.EmitsLine.supplies {args : List (Expr Judged)}
    {t t' : SymbolTable} {code : Code} (h : site.EmitsLine args t code t')
    {tys : List Ty} (htys : Expr.HaveTypes sigs Γ args tys)
    (hΓ : ∀ b ∈ Γ, Ident.Plain b.1) : Supplies t t' code.reads := by
  cases h with
  | nil => exact .refl _
  | cons harg hargs => cases htys with
    | cons ha has =>
      rw [Code.reads_append]
      exact (harg.supplies ha hΓ).trans (hargs.supplies has hΓ)

end Print

namespace Stmt

variable {site : Site} {sigs : Signatures} {expected : Option Ty}

mutual

/-- **The code of a statement reads each of its temporaries once**, and all of
them were taken for it. -/
theorem Emits.supplies {stmt : Stmt Judged} {t t' : SymbolTable} {code : Code}
    (h : stmt.Emits site t code t') {Γ Γ' : Context} {returns : Returns}
    (heffect : stmt.HasEffect sigs expected Γ Γ' returns)
    (hΓ' : ∀ b ∈ Γ', Ident.Plain b.1) : Supplies t t' code.reads := by
  have hΓ : ∀ b ∈ Γ, Ident.Plain b.1 :=
    fun b hb => hΓ' b (heffect.context.1 hb)
  match h with
  | .introduce hinit => cases heffect with
    | introduce hi => exact hinit.supplies hi hΓ
  | .assign hvalue => cases heffect with
    | assign _ hv => exact hvalue.supplies hv hΓ
  | .update hcurrent htemp hoperand => cases heffect with
    | update hname ho =>
      rw [Code.reads_append, Code.reads_append, List.append_assoc]
      exact (Supplies.plain (hΓ _ hname)).trans
        (.operands hcurrent (.refl _) htemp (hoperand.supplies ho hΓ))
  | .pass => exact .refl _
  | .print hargs hnewline => cases heffect with
    | print ha =>
      rw [Code.reads_append]
      exact (hargs.supplies ha hΓ).trans hnewline.supplies
  | .ret htemp hvalue => cases heffect with
    | ret _ hv =>
      rw [Code.reads_append]
      exact .last htemp (hvalue.supplies hv hΓ)
  | .retUnit htemp => exact .temporary htemp
  | .call hargs => cases heffect with
    | call _ ha =>
      rw [Code.reads_append, Code.reads_append, reads_setArguments]
      exact (hargs.supplies ha hΓ).trans (.refl _)
  | .ifElse hthenLabel helseLabel hdone hcond hthen helse =>
    cases heffect with
    | ifElse hc hethen heelse =>
      have hlabels := Supplies.grows
        (Takes.labels (by simp) hthenLabel helseLabel hdone).grows
      have hΓ₁ := fun b hb => hΓ' b (heelse.context.1 hb)
      refine (((hlabels.trans (hcond.supplies hc hΓ)).trans
        (hthen.supplies hethen hΓ₁)).trans
          (helse.supplies heelse hΓ')).congr fun x => ?_
      simp [Instr.reads]
  | .whileLoop hagain hstart hdone hcond hbody => cases heffect with
    | whileLoop hc hebody =>
      have hlabels := Supplies.grows
        (Takes.labels (by simp) hagain hstart hdone).grows
      refine ((hlabels.trans (hcond.supplies hc hΓ)).trans
        (hbody.supplies hebody hΓ')).congr fun x => ?_
      simp [Instr.reads]

/-- **The code of statements reads each of its temporaries once**, and all of
them were taken for it. -/
theorem EmitsAll.supplies {stmts : List (Stmt Judged)} {t t' : SymbolTable}
    {code : Code} (h : EmitsAll site stmts t code t') {Γ Γ' : Context}
    {before returns : Returns}
    (heffect : HaveEffect sigs expected Γ before stmts Γ' returns)
    (hΓ' : ∀ b ∈ Γ', Ident.Plain b.1) : Supplies t t' code.reads := by
  match h with
  | .nil => exact .refl _
  | .cons hstmt hstmts => cases heffect with
    | cons hefirst _ herest =>
      have hΓ₁ := fun b hb => hΓ' b (herest.context.1 hb)
      rw [Code.reads_append]
      exact (hstmt.supplies hefirst hΓ₁).trans (hstmts.supplies herest hΓ')

end

end Stmt

/-! ## Places that are written before they are read -/

/-- **The labels of a destination**, with what has been written there. -/
def Destination.marks (written : List Slot) : Destination → Code.Marks
  | .store _ => []
  | .branch ifTrue ifFalse => [(ifTrue, written), (ifFalse, written)]

/-- What has been written behind code with a destination. -/
def Destination.after (written : List Slot) : Destination → List Slot
  | .store dst => dst :: written
  | .branch _ _ => written

/-- Setting arguments aside is careful where they have been written. -/
theorem isCareful_setArguments {written temps : List Slot}
    (hsub : temps ⊆ written) (given : Code.Marks) (index : UInt64) :
    Code.IsCareful [] given written (setArguments index temps) written := by
  induction temps generalizing index with
  | nil => exact .nil given written
  | cons temp temps ih =>
    obtain ⟨hmem, hsub⟩ := List.cons_subset.mp hsub
    have hread : Instr.IsCareful written (.setArgument index temp) :=
      .of_subset (List.cons_subset.mpr ⟨hmem, List.nil_subset _⟩)
    have hfirst : Code.IsCareful [] given written [.setArgument index temp]
        written :=
      ⟨rfl, fun _ _ _ => .next rfl rfl hread (.nil (List.Subset.refl _))⟩
    exact hfirst.append (ih hsub (index + 1))

namespace Expr

variable {site : Site} {sigs : Signatures} {Γ : Context}

open Code.IsCareful Instr.IsCareful

mutual

/-- **The code of an expression is careful**, whatever has been written
before. -/
theorem Emits.isCareful {e : Expr Judged} {dest : Destination}
    {t t' : SymbolTable} {code : Code} (h : e.Emits site dest t code t')
    {ty : Ty} (hty : e.HasType sigs Γ ty)
    (hΓ : ∀ b ∈ Γ, Ident.Plain b.1) (written : List Slot) :
    ∃ own, code.IsCareful own (dest.marks written) written
      (dest.after written) := by
  match h with
  | .int | .unit | .boolStore | .str _ =>
    exact ⟨_, readsNone rfl rfl rfl⟩
  | @Emits.boolBranch _ _ b _ _ _ =>
    exact ⟨_, jump (by cases b <;> simp [Destination.marks])⟩
  | .varStore => cases hty with
    | var _ hname =>
      exact ⟨_, next [] rfl rfl (of_plain rfl (hΓ _ hname))⟩
  | .varBranch => cases hty with
    | var _ hname =>
      exact ⟨_, go [] (List.cons_ne_nil _ _) (of_plain rfl (hΓ _ hname))
        (by simp [Instr.targets, Destination.marks])⟩
  | @Emits.arith _ _ _ _ _ _ left right _ _ _ _ _ _ _ _ hlhs _ hrhs =>
    cases hty with
    | arith _ hl hr =>
      obtain ⟨_, hleft⟩ := hlhs.isCareful hl hΓ written
      -- the value on the left is kept while the one on the right is computed
      obtain ⟨_, hright⟩ := hrhs.isCareful hr hΓ (left :: written)
      exact ⟨_, (hleft.append hright).append
        (next [right, left] rfl rfl (of_subset (by simp [Instr.reads])))⟩
  | @Emits.compare _ _ _ _ _ _ _ left right _ _ _ _ _ _ _ _ hlhs _ hrhs =>
    cases hty with
    | compare _ hl hr =>
      obtain ⟨_, hleft⟩ := hlhs.isCareful hl hΓ written
      obtain ⟨_, hright⟩ := hrhs.isCareful hr hΓ (left :: written)
      exact ⟨_, ((hleft.append hright).mono (List.nil_subset _)).append
        (go [right, left] (List.cons_ne_nil _ _)
          (of_subset (by simp [Instr.reads]))
          (by simp [Instr.targets, Destination.marks]))⟩
  | @Emits.and _ _ _ _ _ _ second _ _ _ _ _ _ _ hlhs hrhs
  | @Emits.or _ _ _ _ _ _ second _ _ _ _ _ _ _ hlhs hrhs =>
    cases hty with
    | logic _ hl hr =>
      obtain ⟨_, hleft⟩ := hlhs.isCareful hl hΓ written
      obtain ⟨_, hright⟩ := hrhs.isCareful hr hΓ written
      refine ⟨_, close [(second, written)] (((hleft.mono ?_).append
        (label second _ _)).append (hright.mono ?_)) ?_⟩
      all_goals simp [Destination.marks, Destination.after]
  | .not hoperand => cases hty with
    | not _ ho =>
      obtain ⟨own, hcode⟩ := hoperand.isCareful ho hΓ written
      exact ⟨own, hcode.mono (by simp [Destination.marks])⟩
  | .input _ hprompt => cases hty with
    | input _ hp =>
      obtain ⟨_, hcode⟩ := hprompt.isCareful hp hΓ written
      exact ⟨_, hcode.append
        ((readsOne rfl rfl rfl).append (readsNone rfl rfl rfl))⟩
  | .strToInt _ _ hoperand | .intToStr _ _ hoperand => cases hty with
    | convert _ _ ho =>
      obtain ⟨_, hcode⟩ := hoperand.isCareful ho hΓ written
      exact ⟨_, hcode.append (readsOne rfl rfl rfl)⟩
  | .boolToStr _ hchoice => cases hty with
    | convert _ _ ho =>
      exact hchoice.isCareful ho hΓ written
        (fun _ => readsNone rfl rfl rfl) (fun _ => readsNone rfl rfl rfl)
  | .keep _ hoperand => cases hty with
    | convert _ _ ho => exact hoperand.isCareful ho hΓ written
  | @Emits.call _ _ _ _ _ temps _ _ _ hargs => cases hty with
    | call _ _ ha =>
      obtain ⟨_, hcode⟩ := hargs.isCareful ha hΓ written
      exact ⟨_, (hcode.append
        (isCareful_setArguments (List.subset_append_left _ _) _ _)).append
          ((next temps rfl rfl (of_nil rfl)).append
            (readsNone rfl rfl rfl))⟩
  | @Emits.branchStored _ _ _ _ temp _ _ _ _ _ _ hvalue =>
    obtain ⟨_, hcode⟩ := hvalue.isCareful hty hΓ written
    exact ⟨_, (hcode.mono (List.nil_subset _)).append
      (go [temp] (List.cons_ne_nil _ _) (of_subset (List.Subset.refl _))
        (by simp [Instr.targets, Destination.marks]))⟩
  | .storeBranched _ _ hchoice =>
    obtain ⟨_, hcode⟩ := hchoice.isCareful hty hΓ written
      (fun _ => readsNone rfl rfl rfl) (fun _ => readsNone rfl rfl rfl)
    exact ⟨_, hcode.append (readsOne rfl rfl rfl)⟩

/-- A choice between two instructions that write the same place is careful,
and behind it the place has been written. -/
theorem EmitsChoice.isCareful {e : Expr Judged} {onTrue onFalse : Instr}
    {t t' : SymbolTable} {code : Code}
    (h : e.EmitsChoice site onTrue onFalse t code t') {ty : Ty}
    (hty : e.HasType sigs Γ ty) (hΓ : ∀ b ∈ Γ, Ident.Plain b.1)
    (written : List Slot) {dst : Slot}
    (htrue : ∀ given,
      Code.IsCareful [] given written [onTrue] (dst :: written))
    (hfalse : ∀ given,
      Code.IsCareful [] given written [onFalse] (dst :: written)) :
    ∃ own, code.IsCareful own [] written (dst :: written) := by
  match h with
  | @EmitsChoice.mk _ _ _ _ yes no join _ _ _ _ _ _ _ _ _ he =>
    obtain ⟨_, hcode⟩ := he.isCareful hty hΓ written
    -- either instruction writes the place, so it is marked where they meet
    have hmeet : Code.IsCareful []
        [(yes, written), (no, written), (join, dst :: written)]
        (dst :: written) [.jump join] written := jump (by simp)
    refine ⟨_, close [(yes, written), (no, written), (join, dst :: written)]
      ((hcode.mono ?_).append ((label yes _ _).append ((htrue _).append
        (hmeet.append ((label no _ _).append ((hfalse _).append
          (label join _ _))))))) ?_⟩
    all_goals simp [Destination.marks, Destination.after]

/-- The code of arguments is careful, and behind it their temporaries have
been written. -/
theorem EmitsArgs.isCareful {args : List (Expr Judged)} {temps : List Slot}
    {t t' : SymbolTable} {code : Code}
    (h : EmitsArgs site args temps t code t') {tys : List Ty}
    (htys : HaveTypes sigs Γ args tys) (hΓ : ∀ b ∈ Γ, Ident.Plain b.1)
    (written : List Slot) :
    ∃ own, code.IsCareful own [] written (temps ++ written) := by
  match h with
  | .nil => exact ⟨_, .nil _ _⟩
  | @EmitsArgs.cons _ _ _ temp temps _ _ _ _ _ _ _ harg hargs =>
    cases htys with
    | cons ha has =>
      obtain ⟨_, hfirst⟩ := harg.isCareful ha hΓ written
      obtain ⟨_, hrest⟩ := hargs.isCareful has hΓ (temp :: written)
      exact ⟨_, (hfirst.append hrest).forget
        List.perm_middle.symm.subset⟩

end

end Expr

section Print

variable {site : Site} {sigs : Signatures} {Γ : Context}

open Code.IsCareful Instr.IsCareful

theorem Site.EmitsText.isCareful {text : Label} {t t' : SymbolTable}
    {code : Code} (h : site.EmitsText text t code t') :
    ∃ own, code.IsCareful own [] [] [] := by
  cases h with
  | mk => exact ⟨_, (readsNone rfl rfl rfl).append (readsOne rfl rfl rfl)⟩

/-- The code that writes a value is careful. -/
theorem Expr.EmitsPrint.isCareful {arg : Expr Judged} {t t' : SymbolTable}
    {code : Code} (h : arg.EmitsPrint site t code t') {ty : Ty}
    (hty : arg.HasType sigs Γ ty) (hΓ : ∀ b ∈ Γ, Ident.Plain b.1) :
    ∃ own, code.IsCareful own [] [] [] := by
  cases h with
  | int _ _ harg | str _ _ harg =>
    obtain ⟨_, hcode⟩ := harg.isCareful hty hΓ []
    exact ⟨_, hcode.append (readsOne rfl rfl rfl)⟩
  | bool _ _ hchoice =>
    obtain ⟨_, hcode⟩ := hchoice.isCareful hty hΓ []
      (fun _ => readsNone rfl rfl rfl) (fun _ => readsNone rfl rfl rfl)
    exact ⟨_, hcode.append (readsOne rfl rfl rfl)⟩
  | unit _ _ harg hprint =>
    obtain ⟨_, hcode⟩ := harg.isCareful hty hΓ []
    obtain ⟨_, hrest⟩ := hprint.isCareful
    exact ⟨_, (hcode.forget (List.nil_subset _)).append hrest⟩

/-- The code that writes more values is careful. -/
theorem Site.EmitsMore.isCareful {args : List (Expr Judged)}
    {t t' : SymbolTable} {code : Code} (h : site.EmitsMore args t code t')
    {tys : List Ty} (htys : Expr.HaveTypes sigs Γ args tys)
    (hΓ : ∀ b ∈ Γ, Ident.Plain b.1) :
    ∃ own, code.IsCareful own [] [] [] := by
  induction h generalizing tys with
  | nil => exact ⟨_, .nil _ _⟩
  | cons hspace harg _ ih => cases htys with
    | cons ha has =>
      obtain ⟨_, hblank⟩ := hspace.isCareful
      obtain ⟨_, hfirst⟩ := harg.isCareful ha hΓ
      obtain ⟨_, hrest⟩ := ih has
      exact ⟨_, (hblank.append hfirst).append hrest⟩

/-- The code that writes values is careful. -/
theorem Site.EmitsLine.isCareful {args : List (Expr Judged)}
    {t t' : SymbolTable} {code : Code} (h : site.EmitsLine args t code t')
    {tys : List Ty} (htys : Expr.HaveTypes sigs Γ args tys)
    (hΓ : ∀ b ∈ Γ, Ident.Plain b.1) :
    ∃ own, code.IsCareful own [] [] [] := by
  cases h with
  | nil => exact ⟨_, .nil _ _⟩
  | cons harg hargs => cases htys with
    | cons ha has =>
      obtain ⟨_, hfirst⟩ := harg.isCareful ha hΓ
      obtain ⟨_, hrest⟩ := hargs.isCareful has hΓ
      exact ⟨_, hfirst.append hrest⟩

end Print

namespace Stmt

variable {site : Site} {sigs : Signatures} {expected : Option Ty}

open Code.IsCareful Instr.IsCareful

mutual

/-- **The code of a statement is careful**, though nothing has been written
before. -/
theorem Emits.isCareful {stmt : Stmt Judged} {t t' : SymbolTable}
    {code : Code} (h : stmt.Emits site t code t') {Γ Γ' : Context}
    {returns : Returns} (heffect : stmt.HasEffect sigs expected Γ Γ' returns)
    (hΓ' : ∀ b ∈ Γ', Ident.Plain b.1) :
    ∃ own, code.IsCareful own [(site.exit, [])] [] [] := by
  have hΓ : ∀ b ∈ Γ, Ident.Plain b.1 :=
    fun b hb => hΓ' b (heffect.context.1 hb)
  match h with
  | .introduce hinit => cases heffect with
    | introduce hi =>
      obtain ⟨_, hcode⟩ := hinit.isCareful hi hΓ []
      exact ⟨_, (hcode.mono (List.nil_subset _)).forget (List.nil_subset _)⟩
  | .assign hvalue => cases heffect with
    | assign _ hv =>
      obtain ⟨_, hcode⟩ := hvalue.isCareful hv hΓ []
      exact ⟨_, (hcode.mono (List.nil_subset _)).forget (List.nil_subset _)⟩
  | @Emits.update _ _ _ _ _ current temp _ _ _ _ _ _ _ hoperand =>
    cases heffect with
    | update hname ho =>
      obtain ⟨_, hcode⟩ := hoperand.isCareful ho hΓ [current]
      exact ⟨_, (((next [] rfl rfl (of_plain rfl (hΓ _ hname))).append
        (hcode.mono (List.nil_subset _))).append
          (next [temp, current] rfl rfl
            (of_subset (by simp [Instr.reads])))).forget
              (List.nil_subset _)⟩
  | .pass => exact ⟨_, readsNone rfl rfl rfl⟩
  | .print hargs hnewline => cases heffect with
    | print ha =>
      obtain ⟨_, hcode⟩ := hargs.isCareful ha hΓ
      obtain ⟨_, hend⟩ := hnewline.isCareful
      exact ⟨_, (hcode.append hend).mono (List.nil_subset _)⟩
  | .ret _ hvalue => cases heffect with
    | ret _ hv =>
      obtain ⟨_, hcode⟩ := hvalue.isCareful hv hΓ []
      exact ⟨_, (hcode.mono (List.nil_subset _)).append
        ((readsOne rfl rfl rfl).append (jump (List.mem_singleton_self _)))⟩
  | .retUnit _ =>
    exact ⟨_, (readsNone rfl rfl rfl).append
      ((readsOne rfl rfl rfl).append (jump (List.mem_singleton_self _)))⟩
  | @Emits.call _ _ _ _ temps _ _ _ hargs => cases heffect with
    | call _ ha =>
      obtain ⟨_, hcode⟩ := hargs.isCareful ha hΓ []
      exact ⟨_, ((hcode.mono (List.nil_subset _)).append
        (isCareful_setArguments (List.subset_append_left _ _) _ _)).append
          (next temps rfl rfl (of_nil rfl))⟩
  | @Emits.ifElse _ _ _ _ _ thenLabel elseLabel done _ _ _ _ _ _ _ _ _ _ _ _
      _ hcond hthen helse =>
    cases heffect with
    | ifElse hc hethen heelse =>
      have hΓ₁ := fun b hb => hΓ' b (heelse.context.1 hb)
      obtain ⟨_, hcode⟩ := hcond.isCareful hc hΓ []
      obtain ⟨_, hfirst⟩ := hthen.isCareful hethen hΓ₁
      obtain ⟨_, hsecond⟩ := helse.isCareful heelse hΓ'
      refine ⟨_, close [(thenLabel, []), (elseLabel, []), (done, [])]
        ((((((hcode.mono ?_).append (label thenLabel _ _)).append
          (hfirst.mono ?_)).append ((jump (l := done) ?_).append
            (label elseLabel _ _))).append (hsecond.mono ?_)).append
              (label done _ _)) ?_⟩
      all_goals simp [Destination.marks, Destination.after]
  | @Emits.whileLoop _ _ _ _ again start done _ _ _ _ _ _ _ _ _ _ _
      hcond hbody =>
    cases heffect with
    | whileLoop hc hebody =>
      obtain ⟨_, hcode⟩ := hcond.isCareful hc hΓ []
      obtain ⟨_, hblock⟩ := hbody.isCareful hebody hΓ'
      refine ⟨_, close [(again, []), (start, []), (done, [])]
        (((((label again _ _).append (hcode.mono ?_)).append
          (label start _ _)).append (hblock.mono ?_)).append
            ((jump (l := again) ?_).append (label done _ _))) ?_⟩
      all_goals simp [Destination.marks, Destination.after]

/-- **The code of statements is careful**, though nothing has been written
before. -/
theorem EmitsAll.isCareful {stmts : List (Stmt Judged)} {t t' : SymbolTable}
    {code : Code} (h : EmitsAll site stmts t code t') {Γ Γ' : Context}
    {before returns : Returns}
    (heffect : HaveEffect sigs expected Γ before stmts Γ' returns)
    (hΓ' : ∀ b ∈ Γ', Ident.Plain b.1) :
    ∃ own, code.IsCareful own [(site.exit, [])] [] [] := by
  match h with
  | .nil => exact ⟨_, .nil _ _⟩
  | .cons hstmt hstmts => cases heffect with
    | cons hefirst _ herest =>
      have hΓ₁ := fun b hb => hΓ' b (herest.context.1 hb)
      obtain ⟨_, hfirst⟩ := hstmt.isCareful hefirst hΓ₁
      obtain ⟨_, hrest⟩ := hstmts.isCareful herest hΓ'
      exact ⟨_, hfirst.append hrest⟩

end

end Stmt

/-! ## Routines -/

namespace Routine.EmittedFor

variable {r : Routine} {symbols : SymbolTable} {constants : Constants}
  {d : Definition Judged} {sigs : Signatures} {expected : Option Ty}
  {Γ : Context} {returns : Returns}

/-- **A routine reads each of its temporaries once.** -/
theorem count_reads_le (h : r.EmittedFor symbols constants d)
    (hbody : Stmt.HaveEffect sigs expected d.params .never d.body.stmts Γ
      returns) (hΓ : ∀ b ∈ Γ, Ident.Plain b.1) {x : Slot}
    (hx : ¬ Ident.Plain x) : r.code.reads.count x ≤ 1 := by
  obtain ⟨site, code, t, t', -, -, hcode, hemits, -⟩ := h.body
  have hreads : r.code.reads = Code.reads code := by
    rw [hcode]
    simp [Instr.reads]
  rw [hreads]
  exact (hemits.supplies hbody hΓ).count_le x hx

/-- **The code of a routine is careful**, with a mark on each of its labels.
-/
theorem careful (h : r.EmittedFor symbols constants d)
    (hbody : Stmt.HaveEffect sigs expected d.params .never d.body.stmts Γ
      returns) (hΓ : ∀ b ∈ Γ, Ident.Plain b.1) :
    ∃ marks : Code.Marks, marks.map Prod.fst = r.code.labels
      ∧ Code.Careful marks [] r.code [] := by
  obtain ⟨site, code, t, t', -, -, hcode, hemits, -⟩ := h.body
  obtain ⟨own, hown⟩ := hemits.isCareful hbody hΓ
  have hstart := (Code.IsCareful.label r.name [(site.exit, [])] []).append
    (.readsNone (i := .enter) rfl rfl rfl)
  have hend := (Code.IsCareful.label site.exit [(site.exit, [])] []).append
    (.readsNone (i := .leave) rfl rfl rfl)
  have hall : Code.IsCareful _ [] [] _ [] :=
    ((hstart.append hown).append hend).close [(site.exit, [])] (by simp)
  rw [hcode]
  exact ⟨_, hall.labels, hall.careful _ (List.Subset.refl _)
    (List.nil_subset _)⟩

end Routine.EmittedFor

/-! ## Programs -/

/-- **The temporaries of a scope**, the oldest first. -/
def Scope.temporaries (s : Scope) : List Slot :=
  (s.symbols.filter (·.kind == .temporary)).map Symbol.name

theorem Scope.mem_temporaries {s : Scope} {x : Slot} :
    x ∈ s.temporaries
      ↔ ∃ symbol ∈ s.symbols, symbol.kind = .temporary ∧ symbol.name = x := by
  simp [temporaries, and_assoc]

theorem Definition.kind_of_mem_layout {α : Type} {d : Definition α} :
    ∀ s ∈ d.layout, s.kind ≠ .temporary := by
  refine List.forall_mem_append.mpr ⟨?_, ?_⟩
  all_goals
    refine List.forall_mem_map.mpr fun b _ => ?_
    exact SymbolKind.noConfusion

/-- The check declares no temporaries. -/
theorem Program.kind_of_check {p : Program Span} {typed : TypedProgram}
    (h : p.check = .ok typed) (i : Nat) :
    ∀ s ∈ (typed.symbols.scope (.nested i)).symbols, s.kind ≠ .temporary := by
  rw [SymbolTable.scope]
  cases hscope : typed.symbols.nested[i]? with
  | none =>
    intro s hs
    cases hs
  | some scope =>
    have hmem := List.mem_map_of_mem (f := fun s => (s.owner, s.symbols))
      (List.mem_of_getElem? hscope)
    rw [layout_of_check h] at hmem
    obtain ⟨d, -, hd⟩ := List.mem_map.mp hmem
    have hsymbols : d.layout = scope.symbols := congrArg Prod.snd hd
    show ∀ s ∈ scope.symbols, s.kind ≠ .temporary
    rw [← hsymbols]
    exact Definition.kind_of_mem_layout

/-- **Temporaries have no plain names.** -/
theorem Symbol.IsMadeUp.not_plain {s : Symbol} (h : s.IsMadeUp)
    (hkind : s.kind = .temporary) : ¬ Ident.Plain s.name := by
  obtain ⟨n, ty, rfl⟩ | ⟨hint, n, rfl⟩ := h
  · exact (Made.single stem_temporary n).not_plain
  · cases hkind

/-- **The temporaries of a compiled program were made up**, since all that
emission adds to the scopes of bodies was. -/
theorem Program.not_plain_of_mem_temporaries {p : Program Span}
    {typed : TypedProgram} {a : Assembly} (hcheck : p.check = .ok typed)
    (hemit : typed.emit = .ok a) {i : Nat} {x : Slot}
    (hx : x ∈ (a.symbols.scope (.nested i)).temporaries) :
    ¬ Ident.Plain x := by
  obtain ⟨s, hs, hkind, rfl⟩ := Scope.mem_temporaries.mp hx
  obtain ⟨added, hadded, hmade⟩ :=
    ((table_contents hcheck).2 a hemit).1.nested i
  rw [hadded] at hs
  rcases List.mem_append.mp hs with hs | hs
  · exact absurd hkind (kind_of_check hcheck i s hs)
  · exact (hmade s hs).not_plain hkind

theorem SymbolTable.mem_madeIn {t : SymbolTable} {id : ScopeId} {s : Symbol}
    (hs : s ∈ (t.scope id).newestFirst) (hplain : ¬ Ident.Plain s.name) :
    s.name ∈ t.madeIn id :=
  List.mem_filter.mpr ⟨List.mem_map_of_mem hs, decide_eq_true hplain⟩

/-- **What was made up for one scope has no symbol in another.** -/
theorem SymbolTable.Distinct.eq_of_hasPlace {t : SymbolTable} (h : t.Distinct)
    {id id' : ScopeId} {x : Slot} (hx : x ∈ (t.scope id).temporaries)
    (hplain : ¬ Ident.Plain x) {ty : Ty} (hplace : t.HasPlace id' x ty) :
    id' = id := by
  obtain ⟨s, hs, -, rfl⟩ := Scope.mem_temporaries.mp hx
  obtain ⟨s', hs', -, -⟩ := hplace
  obtain ⟨hmem, hname⟩ := Scope.find?_eq_some hs'
  have hmade := mem_madeIn (List.mem_reverse.mp hs) hplain
  have hmade' := mem_madeIn hmem (hname.symm ▸ hplain)
  by_contra hne
  exact h.disjoint id' id hne hmade' (hname.symm ▸ hmade)

/-- **Temporaries are written before they are read, and read once.** In a
compiled program whose names are plain, each temporary of a routine is read
once in its code at most. On every path from the start of the code to an
instruction that reads it, whichever way branches go and with calls coming
back, an instruction writes it. And the code of no other routine mentions it.
-/
theorem Program.compile_temporaries {p : Program Span} {a : Assembly}
    (hcompile : p.compile = .ok a) (hplain : p.HasPlainNames) :
    ∀ r ∈ a.bodies,
      ∀ x ∈ (a.symbols.scope r.prototype.scope).temporaries,
      r.code.reads.count x ≤ 1
      ∧ (∀ trace i rest, r.code.Path r.code trace (i :: rest) →
        x ∈ i.reads → ∃ j ∈ trace, j.dst? = some x)
      ∧ ∀ r' ∈ a.bodies, r' ≠ r → ∀ i ∈ r'.code, x ∉ i.slots := by
  obtain ⟨typed, hcheck, hemit⟩ := compile_eq_ok.mp hcompile
  have hsound := check_sound hcheck
  have hemits := TypedProgram.emits_of_emit hemit
  have hnames : typed.program.HasPlainNames :=
    .of_erase (hsound.erase.symm ▸ hplain)
  have hscope := ((table_contents hcheck).2 a hemit).2
  have hlabels := (hemits.wellFormed hsound fun d hd =>
    (hplain.definitions d hd).2).labels
  intro r hr x hx
  obtain ⟨n, hn⟩ := List.mem_iff_getElem?.mp hr
  have hxplain : ¬ Ident.Plain x := by
    rw [hscope n r hn] at hx
    exact not_plain_of_mem_temporaries hcheck hemit hx
  obtain ⟨constants, d, hd, hfor⟩ := hemits.exists_emittedFor hr
  obtain ⟨-, _, Γ, _, heffect⟩ := hsound.wellTyped.exists_haveEffect hd
  have hΓ := hnames.context hd heffect
  refine ⟨hfor.count_reads_le heffect hΓ hxplain, ?_, ?_⟩
  · obtain ⟨marks, hmarks, hcareful⟩ := hfor.careful heffect hΓ
    have hnodup : (marks.map Prod.fst).Nodup := by
      rw [hmarks]
      exact (List.pairwise_flatMap.mp hlabels).1 r hr
    exact fun trace i rest hpath hread =>
      hcareful.exists_write hnodup hpath hread hxplain
  · intro r' hr' hne i hi hslot
    have htyped := (hemits.isTyped hcheck hnames).routines r' hr'
    obtain ⟨ty, hplace⟩ := htyped.code.exists_place i hi x hslot
    have hdistinct :=
      (TypedProgram.emittedAs_of_emit hcheck hnames hemit).distinct
    have hsame := hdistinct.eq_of_hasPlace hx hxplain hplace
    -- the scopes are numbered as the routines are
    obtain ⟨n', hn'⟩ := List.mem_iff_getElem?.mp hr'
    rw [hscope n r hn, hscope n' r' hn'] at hsame
    cases hsame
    exact hne (Option.some.inj (hn'.symm.trans hn))

/-- The doubling program has temporaries, which are written before they are
read, and read once. -/
theorem Program.compile_temporaries_doubling : ∃ a, doubling.compile = .ok a
    ∧ (∃ r ∈ a.bodies,
      (a.symbols.scope r.prototype.scope).temporaries ≠ [])
    ∧ ∀ r ∈ a.bodies,
      ∀ x ∈ (a.symbols.scope r.prototype.scope).temporaries,
      r.code.reads.count x ≤ 1
      ∧ (∀ trace i rest, r.code.Path r.code trace (i :: rest) →
        x ∈ i.reads → ∃ j ∈ trace, j.dst? = some x)
      ∧ ∀ r' ∈ a.bodies, r' ≠ r → ∀ i ∈ r'.code, x ∉ i.slots := by
  obtain ⟨a, hcompile⟩ := exists_compile_doubling
  have hplain : doubling.HasPlainNames := ⟨by decide, by decide, by decide⟩
  have hsome : doubling.compile.toOption.any (fun a => a.bodies.any fun r =>
      (a.symbols.scope r.prototype.scope).temporaries ≠ []) = true := by
    decide +kernel
  rw [hcompile] at hsome
  refine ⟨a, hcompile, ?_, compile_temporaries hcompile hplain⟩
  simpa [Except.toOption] using hsome

end Primer
