import Primer.Proofs.Emission.Places
import Primer.Proofs.Paths
import Primer.Proofs.Semantics.Soundness

/-!
# Returns in emitted code

The checker keeps a summary of how control leaves a statement, and the emitter
knows nothing of it: a choice whose blocks both return is followed by a label
that nothing jumps to, and code after it is emitted all the same. That the
summary is right about the code is proved here.

A return sets the result and jumps to the exit, where nothing is set any more.
So a way out from the code of statements returns once if, unless the summary
is that the statements always return, every way out from behind them does
(`Stmt.EmitsAll.returnsFrom`). Of a definition the summary is that it always
returns, and then nothing is asked of what comes behind; in the main script no
statement may return, and its code is quiet.
-/

namespace Primer

open SymbolTable Code

/-! ## Quiet code -/

@[simp] theorem isQuiet_setArguments (index : UInt64) (temps : List Slot) :
    (setArguments index temps).IsQuiet := by
  induction temps generalizing index with
  | nil => exact isQuiet_nil
  | cons temp temps ih => exact isQuiet_cons.mpr ⟨rfl, ih (index + 1)⟩

namespace Expr

variable {site : Site}

mutual

/-- **The code of an expression is quiet.** -/
theorem Emits.isQuiet {e : Expr Judged} {dest : Destination}
    {t t' : SymbolTable} {code : Code} (h : e.Emits site dest t code t') :
    code.IsQuiet := by
  match h with
  | .int | .unit | .boolStore | .boolBranch | .varStore | .varBranch
  | .str _ => simp [Instr.setsResult]
  | .arith _ hlhs _ hrhs | .compare _ hlhs _ hrhs | .and _ hlhs hrhs
  | .or _ hlhs hrhs =>
    simp [Instr.setsResult, hlhs.isQuiet, hrhs.isQuiet]
  | .not hoperand | .keep _ hoperand => exact hoperand.isQuiet
  | .input _ hoperand | .strToInt _ _ hoperand | .intToStr _ _ hoperand
  | .branchStored _ _ hoperand =>
    simp [Instr.setsResult, hoperand.isQuiet]
  | .boolToStr _ hchoice => exact hchoice.isQuiet rfl rfl
  | .call hargs => simp [Instr.setsResult, hargs.isQuiet]
  | .storeBranched _ _ hchoice =>
    simp [Instr.setsResult, hchoice.isQuiet rfl rfl]

theorem EmitsChoice.isQuiet {e : Expr Judged} {onTrue onFalse : Instr}
    {t t' : SymbolTable} {code : Code}
    (h : e.EmitsChoice site onTrue onFalse t code t')
    (htrue : onTrue.setsResult = false)
    (hfalse : onFalse.setsResult = false) : code.IsQuiet := by
  match h with
  | .mk _ _ _ he =>
    simp only [isQuiet_append, isQuiet_cons, he.isQuiet, htrue, hfalse]
    simp [Instr.setsResult]

theorem EmitsArgs.isQuiet {args : List (Expr Judged)} {temps : List Slot}
    {t t' : SymbolTable} {code : Code}
    (h : EmitsArgs site args temps t code t') : code.IsQuiet := by
  match h with
  | .nil => exact isQuiet_nil
  | .cons _ harg hargs =>
    exact isQuiet_append.mpr ⟨harg.isQuiet, hargs.isQuiet⟩

end

end Expr

theorem Site.EmitsText.isQuiet {site : Site} {text : Label}
    {t t' : SymbolTable} {code : Code} (h : site.EmitsText text t code t') :
    code.IsQuiet := by
  cases h with
  | mk => simp [Instr.setsResult]

/-- The code that writes a value is quiet. -/
theorem Expr.EmitsPrint.isQuiet {site : Site} {arg : Expr Judged}
    {t t' : SymbolTable} {code : Code} (h : arg.EmitsPrint site t code t') :
    code.IsQuiet := by
  cases h with
  | int _ _ harg | str _ _ harg => simp [Instr.setsResult, harg.isQuiet]
  | bool _ _ hchoice => simp [Instr.setsResult, hchoice.isQuiet rfl rfl]
  | unit _ _ harg hprint =>
    exact isQuiet_append.mpr ⟨harg.isQuiet, hprint.isQuiet⟩

theorem Site.EmitsMore.isQuiet {site : Site} {args : List (Expr Judged)}
    {t t' : SymbolTable} {code : Code} (h : site.EmitsMore args t code t') :
    code.IsQuiet := by
  induction h with
  | nil => exact isQuiet_nil
  | cons hspace harg _ ih => simp [hspace.isQuiet, harg.isQuiet, ih]

theorem Site.EmitsLine.isQuiet {site : Site} {args : List (Expr Judged)}
    {t t' : SymbolTable} {code : Code} (h : site.EmitsLine args t code t') :
    code.IsQuiet := by
  cases h with
  | nil => exact isQuiet_nil
  | cons harg hargs =>
    exact isQuiet_append.mpr ⟨harg.isQuiet, hargs.isQuiet⟩

namespace Stmt

variable {site : Site} {sigs : Signatures}

mutual

/-- **The code of a statement is quiet** where no return is expected. -/
theorem Emits.isQuiet {stmt : Stmt Judged} {t t' : SymbolTable} {code : Code}
    (h : stmt.Emits site t code t') {Γ Γ' : Context} {returns : Returns}
    (heffect : stmt.HasEffect sigs none Γ Γ' returns) : code.IsQuiet := by
  match h with
  | .introduce hvalue | .assign hvalue => exact hvalue.isQuiet
  | .update _ _ hoperand => simp [Instr.setsResult, hoperand.isQuiet]
  | .pass => simp [Instr.setsResult]
  | .print hargs hnewline =>
    exact isQuiet_append.mpr ⟨hargs.isQuiet, hnewline.isQuiet⟩
  | .ret _ _ => cases heffect with
    | ret hexpected => cases hexpected
  | .retUnit _ => cases heffect with
    | retUnit hexpected => cases hexpected
  | .call hargs => simp [Instr.setsResult, hargs.isQuiet]
  | .ifElse _ _ _ hcond hthen helse => cases heffect with
    | ifElse _ hethen heelse =>
      simp [Instr.setsResult, hcond.isQuiet, hthen.isQuiet hethen,
        helse.isQuiet heelse]
  | .whileLoop _ _ _ hcond hbody => cases heffect with
    | whileLoop _ hebody =>
      simp [Instr.setsResult, hcond.isQuiet, hbody.isQuiet hebody]

/-- **The code of statements is quiet** where no return is expected. -/
theorem EmitsAll.isQuiet {stmts : List (Stmt Judged)} {t t' : SymbolTable}
    {code : Code} (h : EmitsAll site stmts t code t') {Γ Γ' : Context}
    {before returns : Returns}
    (heffect : HaveEffect sigs none Γ before stmts Γ' returns) :
    code.IsQuiet := by
  match h with
  | .nil => exact isQuiet_nil
  | .cons hstmt hstmts => cases heffect with
    | cons hefirst _ herest =>
      exact isQuiet_append.mpr
        ⟨hstmt.isQuiet hefirst, hstmts.isQuiet herest⟩

end

end Stmt

/-! ## Returns -/

/-- **The instructions return once**: one of them sets the result, from a
temporary that the scope has with the type `ret`, and the next one jumps to
the exit. -/
def ReturnsOnce (exit : Label) (scope : Scope) (ret : Ty)
    (trace : List Instr) : Prop :=
  ∃ before temp after, trace = before ++ .setResult temp :: .jump exit :: after
    ∧ IsQuiet before ∧ IsQuiet after
    ∧ scope.find? temp = some (.temporary temp ret)

theorem isQuietly_returnsOnce (exit : Label) (scope : Scope) (ret : Ty) :
    IsQuietly (ReturnsOnce exit scope ret) := by
  rintro i _ hi ⟨before, temp, after, rfl, hbefore, hafter, htemp⟩
  exact ⟨i :: before, temp, after, rfl, isQuiet_cons.mpr ⟨hi, hbefore⟩,
    hafter, htemp⟩

/-- **Code ends at an exit**, and defines no label twice. -/
structure Code.EndsAt (code : Code) (exit : Label) : Prop where
  /-- No label is defined twice. -/
  distinct : code.labels.Nodup
  /-- Behind the exit the body ends. -/
  exit : code.atLabel? exit = some [.label exit, .leave]

/-- **Every way out returns once**, of those with at most `n` steps. -/
abbrev Code.ReturnsFrom (code : Code) (exit : Label) (scope : Scope)
    (ret : Ty) (n : Nat) (pos : Code) : Prop :=
  code.WaysOut (ReturnsOnce exit scope ret) n pos

namespace Code.EndsAt

variable {whole rest after : Code} {exit : Label} {scope : Scope} {ty : Ty}
  {n : Nat} {temp : Slot}

/-- **A return returns once**, since nothing is set at the exit. -/
theorem ret (h : whole.EndsAt exit)
    (htemp : scope.find? temp = some (.temporary temp ty)) :
    whole.ReturnsFrom exit scope ty n
      (.setResult temp :: .jump exit :: rest) := by
  have hexit : whole.WaysOut IsQuiet n [.label exit, .leave] :=
    .quiet isQuietly_isQuiet rfl (by simp) rfl (.leave isQuiet_nil)
  have hjump : whole.WaysOut
      (fun trace => ∃ after, trace = .jump exit :: after ∧ IsQuiet after) n
      (.jump exit :: rest) :=
    .jump (fun after hafter => ⟨after, rfl, hafter⟩) h.exit hexit
  refine .next rfl (by simp) ?_ hjump
  rintro _ ⟨after, rfl, hafter⟩
  exact ⟨[], temp, after, rfl, isQuiet_nil, hafter, htemp⟩

theorem cons {i : Instr} (htargets : i.targets = []) (hleave : i ≠ .leave)
    (hi : i.setsResult = false)
    (h : whole.ReturnsFrom exit scope ty n rest) :
    whole.ReturnsFrom exit scope ty n (i :: rest) :=
  .quiet (isQuietly_returnsOnce exit scope ty) htargets hleave hi h

theorem append (h : whole.EndsAt exit) {mid : Code}
    (hin : mid ++ after <:+ whole) (hinner : mid.Inner [])
    (hquiet : mid.IsQuiet) (hafter : whole.ReturnsFrom exit scope ty n after) :
    whole.ReturnsFrom exit scope ty n (mid ++ after) :=
  .piece (isQuietly_returnsOnce exit scope ty) h.distinct hin hinner hquiet
    nofun hafter

theorem jump (h : whole.EndsAt exit) {l : Label}
    (hl : .label l :: after <:+ whole)
    (hafter : whole.ReturnsFrom exit scope ty n after) :
    whole.ReturnsFrom exit scope ty n (.jump l :: rest) := by
  have hP := isQuietly_returnsOnce exit scope ty
  exact .jump (fun trace => hP _ trace rfl) (atLabel?_of_suffix h.distinct hl)
    (cons rfl nofun rfl hafter)

/-- Past a condition, at either of its labels. -/
theorem branch (h : whole.EndsAt exit) {mid yes no : Code}
    {ifTrue ifFalse : Label} (hin : mid ++ .label ifTrue :: yes <:+ whole)
    (hinFalse : .label ifFalse :: no <:+ whole)
    (hinner : mid.Inner [ifTrue, ifFalse]) (hquiet : mid.IsQuiet)
    (hyes : whole.ReturnsFrom exit scope ty n yes)
    (hno : whole.ReturnsFrom exit scope ty n no) :
    whole.ReturnsFrom exit scope ty n (mid ++ .label ifTrue :: yes) := by
  have hyes : whole.ReturnsFrom exit scope ty n (.label ifTrue :: yes) :=
    cons rfl nofun rfl hyes
  have hno : whole.ReturnsFrom exit scope ty n (.label ifFalse :: no) :=
    cons rfl nofun rfl hno
  have hinTrue := (List.suffix_append mid _).trans hin
  refine .piece (isQuietly_returnsOnce exit scope ty) h.distinct hin hinner
    hquiet (fun l hl found hfound => ?_) hyes
  rcases List.mem_cons.mp hl with rfl | hl
  · rw [atLabel?_of_suffix h.distinct hinTrue] at hfound
    cases hfound
    exact hyes
  · cases List.mem_singleton.mp hl
    rw [atLabel?_of_suffix h.distinct hinFalse] at hfound
    cases hfound
    exact hno

/-- **Round a loop**: a way out from the head either leaves at once or comes
back to the head with fewer steps to go. -/
theorem loop (h : whole.EndsAt exit) {again start done : Label}
    {cond body : Code}
    (hin : .label again :: (cond ++ .label start :: (body ++ .jump again
      :: .label done :: after)) <:+ whole)
    (hinner : cond.Inner [start, done]) (hquiet : cond.IsQuiet)
    (hbody : ∀ m ≤ n, whole.ReturnsFrom exit scope ty m
        (.jump again :: .label done :: after) →
      whole.ReturnsFrom exit scope ty m (body ++ .jump again
        :: .label done :: after))
    (hafter : whole.ReturnsFrom exit scope ty n after) :
    whole.ReturnsFrom exit scope ty n (.label again :: (cond
      ++ .label start :: (body ++ .jump again :: .label done :: after))) := by
  have hP := isQuietly_returnsOnce exit scope ty
  have hcond := (List.suffix_cons _ _).trans hin
  have hdone : .label done :: after <:+ whole :=
    (List.suffix_append (cond ++ .label start :: body ++ [.jump again]) _).trans
      (by simpa using hcond)
  induction n with
  | zero => exact .zero nofun
  | succ n ih =>
    have hafter := hafter.mono (Nat.le_succ n)
    have hhead := ih (fun m hm => hbody m (Nat.le_succ_of_le hm)) hafter
    have hback : whole.ReturnsFrom exit scope ty n
        (.jump again :: .label done :: after) :=
      .jump (fun trace => hP _ trace rfl)
        (atLabel?_of_suffix h.distinct hin) hhead
    exact .succ rfl nofun (fun trace => hP _ trace rfl)
      (h.branch hcond hdone hinner hquiet (hbody n (Nat.le_succ n) hback)
        hafter)

end Code.EndsAt

theorem Returns.Skippable.goesOn {once returns : Returns}
    (h : Skippable once returns) : returns.GoesOn := by
  rintro ty rfl
  cases h

namespace Stmt

variable {site : Site} {sigs : Signatures} {whole : Code}
  {symbols : SymbolTable} {ret : Ty}

mutual

/-- **The summary of a statement is right about its code**: every way out
from the code returns once, if every way out from behind it does wherever the
summary says that control may go on. -/
theorem Emits.returnsFrom (hwhole : whole.EndsAt site.exit)
    {stmt : Stmt Judged} {t t' : SymbolTable} {code : Code}
    (h : stmt.Emits site t code t') (hs : Stretch symbols site.scope t t')
    {Γ Γ' : Context} {returns : Returns}
    (heffect : stmt.HasEffect sigs (some ret) Γ Γ' returns) {after : Code}
    (hin : code ++ after <:+ whole) {n : Nat}
    (hafter : returns.GoesOn → whole.ReturnsFrom site.exit
      (symbols.scope site.scope) ret n after) :
    whole.ReturnsFrom site.exit (symbols.scope site.scope) ret n
      (code ++ after) := by
  -- a way out ends in a return only; other code is quiet, and leaves the
  -- matter to what is behind it
  match h with
  | .introduce hvalue => cases heffect with
    | introduce =>
      exact hwhole.append hin hvalue.inner hvalue.isQuiet (hafter nofun)
  | .assign hvalue => cases heffect with
    | assign =>
      exact hwhole.append hin hvalue.inner hvalue.isQuiet (hafter nofun)
  | .update _ _ hoperand => cases heffect with
    | update =>
      simp only [List.append_assoc, List.cons_append, List.nil_append]
        at hin ⊢
      exact EndsAt.cons rfl nofun rfl
        (hwhole.append ((List.suffix_cons _ _).trans hin) hoperand.inner
          hoperand.isQuiet (EndsAt.cons rfl nofun rfl (hafter nofun)))
  | .pass => cases heffect with
    | pass => exact EndsAt.cons rfl nofun rfl (hafter nofun)
  | .print hargs hnewline => cases heffect with
    | print =>
      exact hwhole.append hin ((hargs.inner []).append (hnewline.inner []))
        (isQuiet_append.mpr ⟨hargs.isQuiet, hnewline.isQuiet⟩)
        (hafter nofun)
  | .ret htemp hvalue => cases heffect with
    | ret hexpected htvalue =>
      cases hexpected
      rw [htvalue.ty_eq] at htemp
      rw [List.append_assoc] at hin ⊢
      obtain ⟨htempStretch, -⟩ :=
        hs.halves (.temporary htemp) hvalue.takes.grows
      exact hwhole.append hin hvalue.inner hvalue.isQuiet
        (hwhole.ret (htempStretch.temporary htemp))
  | .retUnit htemp => cases heffect with
    | retUnit hexpected =>
      cases hexpected
      exact EndsAt.cons rfl nofun rfl
        (hwhole.ret (hs.temporary htemp))
  | .call hargs => cases heffect with
    | call =>
      refine hwhole.append hin ((hargs.inner.append
        (inner_setArguments _ _ _)).append
          (.single (.of_targets_eq_nil rfl nofun nofun))) ?_ (hafter nofun)
      simp [hargs.isQuiet, Instr.setsResult]
  | @Emits.ifElse _ _ _ _ _ thenLabel elseLabel done _ _ _ _ _ _ _ condCode
      thenCode elseCode hthenLabel helseLabel hdone hcond hthen helse =>
    cases heffect with
    | ifElse _ hethen heelse hreturns =>
      have hlabels := Takes.labels (by simp) hthenLabel helseLabel hdone
      obtain ⟨-, hs⟩ := hs.halves (hlabels.grows.trans hcond.takes.grows)
        (hthen.takes.grows.trans helse.takes.grows)
      obtain ⟨hsThen, hsElse⟩ :=
        hs.halves hthen.takes.grows helse.takes.grows
      simp only [List.append_assoc, List.cons_append, List.nil_append]
        at hin ⊢
      have hinThen := (List.suffix_append condCode _).trans hin
      have hinElse := (List.suffix_append (.label thenLabel :: thenCode
        ++ [.jump done]) _).trans (by simpa using hinThen)
      have hinDone := (List.suffix_append (.label elseLabel :: elseCode)
        _).trans hinElse
      have helseOut := helse.returnsFrom hwhole hsElse heelse
        ((List.suffix_cons _ _).trans hinElse) nofun fun hgoes =>
          EndsAt.cons rfl nofun rfl (hafter (hreturns.goesOn.2 hgoes))
      have hthenOut := hthen.returnsFrom hwhole hsThen hethen
        ((List.suffix_cons _ _).trans hinThen) nofun fun hgoes =>
          hwhole.jump hinDone (hafter (hreturns.goesOn.1 hgoes))
      exact hwhole.branch hin hinElse hcond.inner hcond.isQuiet hthenOut
        helseOut
  | @Emits.whileLoop _ _ _ _ again start done _ _ _ _ _ _ condCode bodyCode
      hagain hstart hdone hcond hbody => cases heffect with
    | whileLoop _ hebody hreturns =>
      have hlabels := Takes.labels (by simp) hagain hstart hdone
      obtain ⟨-, hs⟩ := hs.halves (hlabels.grows.trans hcond.takes.grows)
        hbody.takes.grows
      simp only [List.append_assoc, List.cons_append, List.nil_append]
        at hin ⊢
      have hinBody := (List.suffix_append (.label again :: condCode
        ++ [.label start]) _).trans (by simpa using hin)
      exact hwhole.loop hin hcond.inner hcond.isQuiet
        (fun m _ hback => hbody.returnsFrom hwhole hs hebody
          hinBody nofun fun _ => hback)
        (hafter hreturns.goesOn)

/-- **The summary of statements is right about their code.** -/
theorem EmitsAll.returnsFrom (hwhole : whole.EndsAt site.exit)
    {stmts : List (Stmt Judged)} {t t' : SymbolTable} {code : Code}
    (h : EmitsAll site stmts t code t')
    (hs : Stretch symbols site.scope t t') {Γ Γ' : Context}
    {before returns : Returns}
    (heffect : HaveEffect sigs (some ret) Γ before stmts Γ' returns)
    {after : Code} (hin : code ++ after <:+ whole) {n : Nat}
    (hbefore : before.GoesOn)
    (hafter : returns.GoesOn → whole.ReturnsFrom site.exit
      (symbols.scope site.scope) ret n after) :
    whole.ReturnsFrom site.exit (symbols.scope site.scope) ret n
      (code ++ after) := by
  match h with
  | .nil => cases heffect with
    | nil => exact hafter hbefore
  | .cons hstmt hstmts => cases heffect with
    | cons hefirst hthen herest =>
      rw [List.append_assoc] at hin ⊢
      obtain ⟨hsFirst, hsRest⟩ :=
        hs.halves hstmt.takes.grows hstmts.takes.grows
      exact hstmt.returnsFrom hwhole hsFirst hefirst hin fun hgoes =>
        hstmts.returnsFrom hwhole hsRest herest
          ((List.suffix_append _ _).trans hin)
          (hthen.goesOn_of_second hgoes) hafter

end

end Stmt

/-! ## Programs -/

/-- **A routine returns once** on every path from its first instruction to the
end of its body: it sets its result from a temporary, which its scope has with
the type of the result, and jumps to its exit at once. -/
def Routine.ReturnsOnce (symbols : SymbolTable) (r : Routine) : Prop :=
  ∃ body exit, r.code
      = .label r.name :: .enter :: body ++ [.label exit, .leave]
    ∧ ∀ trace rest, r.code.Path r.code trace (.leave :: rest) →
      Primer.ReturnsOnce exit (symbols.scope r.prototype.scope)
        r.prototype.ret trace

namespace Routine.EmittedFor

variable {r : Routine} {symbols : SymbolTable} {constants : Constants}
  {d : Definition Judged} {sigs : Signatures} {Γ Γ' : Context}

/-- The routine of a body that always returns returns once. -/
theorem returnsOnce (h : r.EmittedFor symbols constants d)
    (hdistinct : r.code.labels.Nodup) (hbody : Stmt.HaveEffect sigs
      (some d.ret) Γ .never d.body.stmts Γ' (.always d.ret)) :
    r.ReturnsOnce symbols := by
  obtain ⟨site, code, t, t', hscope, -, hcode, hemits, hs⟩ := h.body
  refine ⟨code, site.exit, hcode, fun trace rest hpath => ?_⟩
  have hin : code ++ [.label site.exit, .leave] <:+ r.code := by
    rw [hcode]
    exact (List.suffix_cons _ _).trans (List.suffix_cons _ _)
  have hwhole : r.code.EndsAt site.exit :=
    ⟨hdistinct, atLabel?_of_suffix hdistinct
      ((List.suffix_append code _).trans hin)⟩
  rw [← hscope, h.ret]
  have hstart : r.code.ReturnsFrom site.exit (symbols.scope site.scope) d.ret
      trace.length (.label r.name :: .enter :: code
        ++ [.label site.exit, .leave]) := by
    refine EndsAt.cons rfl nofun rfl (EndsAt.cons rfl nofun rfl ?_)
    -- nothing goes on behind a body that always returns
    exact hemits.returnsFrom hwhole hs hbody hin nofun
      fun hgoes => absurd rfl (hgoes d.ret)
  refine hstart trace rest ?_ (Nat.le_refl _)
  rw [← hcode]
  exact hpath

theorem isQuiet (h : r.EmittedFor symbols constants d)
    (hbody : Stmt.HaveEffect sigs none Γ .never d.body.stmts Γ' .never) :
    r.code.IsQuiet := by
  obtain ⟨site, code, t, t', -, -, hcode, hemits, -⟩ := h.body
  rw [hcode]
  simp [Instr.setsResult, hemits.isQuiet hbody]

end Routine.EmittedFor

/-- **Every call of a definition returns once**, whichever way its branches
go, and the main script never does. -/
theorem Program.compile_returnsOnce {p : Program Span} {a : Assembly}
    (hcompile : p.compile = .ok a)
    (hnames : ∀ d ∈ p.definitions, ¬ d.name.BeginsWith '.') :
    List.Forall₂ (fun d r => r.name = d.name ∧ r.prototype.params = d.params
        ∧ r.prototype.ret = d.ret
        ∧ a.symbols.scopeOf? d.name = some r.prototype.scope
        ∧ r.ReturnsOnce a.symbols) p.definitions a.routines
      ∧ ∀ src, .setResult src ∉ a.main.code := by
  obtain ⟨typed, hcheck, hemit⟩ := compile_eq_ok.mp hcompile
  have hsound := check_sound hcheck
  have hemits := TypedProgram.emits_of_emit hemit
  have hwell := hemits.wellFormed hsound hnames
  obtain ⟨constants, hroutines, hmain⟩ := hemits.emittedFor
  obtain ⟨Γ, hscript⟩ := hsound.wellTyped.main
  constructor
  · rw [← hsound.erase]
    refine List.forall₂_map_left_iff.mpr (List.forall₂_iff_zip.mpr
      ⟨hroutines.length_eq, fun {d r} hmem => ?_⟩)
    have hr := (List.forall₂_iff_zip.mp hroutines).2 hmem
    obtain ⟨hd, hrmem⟩ := List.of_mem_zip hmem
    obtain ⟨-, Γ', hbody⟩ := hsound.wellTyped.definitions d hd
    have hdistinct := (List.pairwise_flatMap.mp hwell.labels).1 r
      (List.mem_append_left _ hrmem)
    exact ⟨hr.name, hr.params, hr.ret, hr.scope,
      hr.returnsOnce hdistinct hbody⟩
  · intro src hmem
    have hquiet := hmain.isQuiet hscript _ hmem
    cases hquiet

/-- The definition of the doubling program returns once. -/
theorem Program.compile_returnsOnce_doubling :
    ∃ a, doubling.compile = .ok a
      ∧ List.Forall₂ (fun d r => r.name = d.name
        ∧ r.prototype.params = d.params ∧ r.prototype.ret = d.ret
        ∧ a.symbols.scopeOf? d.name = some r.prototype.scope
        ∧ r.ReturnsOnce a.symbols) doubling.definitions a.routines
      ∧ ∀ src, .setResult src ∉ a.main.code := by
  obtain ⟨a, hcompile⟩ := exists_compile_doubling
  exact ⟨a, hcompile, compile_returnsOnce hcompile (by decide)⟩

end Primer
