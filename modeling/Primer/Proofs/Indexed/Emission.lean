import Primer.Compile
import Primer.Indexed.Emission
import Primer.Proofs.Indexed.Typing

/-!
# Emission over an indexed table

`IndexedProgram.lower` writes its code instruction by instruction, raises an
error where it finds it, and has two functions on expressions, with arms for
operators that should not come up. `TypedProgram.emit` puts pieces of code
together, and looks for an error before it emits anything. They agree
(`IndexedProgram.lower_answers`), and so do the two compilers
(`Program.compileIndexed_answers`).

What one piece of code has to show is `Lowers`: from any draft that is ready,
the draft goes on with the code that is emitted over the plain table, or the
first conversion of the none value is refused. There is one lemma for an
instruction, one for code after code and one for each kind of name that may be
taken, and the lemma for a construct follows the construct. Since an
expression that is no condition is branched on by storing it, and a condition
is stored by branching on it, both functions are dealt with at once
(`Expr.Lowered`).
-/

namespace Primer

/-! ## Errors -/

/-- What an error of emission is over an indexed table. -/
def EmissionError.lowering : EmissionError → LoweringError
  | missingScope owner => .missingScope owner
  | duplicateEntry name => .duplicateEntry name
  | unconvertible target span => .unexpectedType target.name .unit span

theorem EmissionError.diagnostic_lowering (error : EmissionError) :
    error.lowering.diagnostic = error.diagnostic := by
  cases error <;> rfl

/-- What is emitted for a tree in which this conversion of the none value is
the first, if there is one. -/
def screened {α : Type} (first? : Option EmissionError) (a : α) : Emitted α :=
  match first? with
  | none => .ok a
  | some error => .error error

section Screened

variable {α β : Type} {first? first'? : Option EmissionError}

theorem screened_orElse (a : α) (f : α → β) :
    screened (first? <|> first'?) (f a) = (do
      let a ← screened first? a
      screened first'? (f a)) := by
  cases first? <;> rfl

theorem screened_map (a : α) (f : α → β) :
    screened first? (f a) = (screened first? a).map f := by
  cases first? <;> rfl

end Screened

theorem SymbolTable.has_grown {t : SymbolTable} {stem : String}
    {id id' : ScopeId} {symbol : String → Symbol} :
    (t.grown stem id symbol).Has id' ↔ t.Has id' := by
  rw [grown, has_modify]
  cases id' <;> exact Iff.rfl

theorem SymbolTable.has_declare {t t' : SymbolTable} {id id' : ScopeId}
    {symbol : Symbol} (h : t.declare id symbol = .ok t') :
    t'.Has id' ↔ t.Has id' := by
  unfold declare at h
  cases hs : (t.scope id).declare symbol with
  | error error => simp [hs] at h
  | ok s =>
    rw [hs] at h
    cases h
    exact has_modify

/-! ## Drafts -/

/-- **A draft is ready** for the code of a body: its table is in step and has
the scope of the body. -/
structure Draft.Ready (d : Draft) (scope : ScopeId) : Prop where
  /-- The table is in step. -/
  inStep : d.symbols.InStep
  /-- The scope is there. -/
  has : d.symbols.Has scope

/-- **A draft goes on to a draft** with this code more, and with this table.
-/
structure Draft.Continues (d : Draft) (scope : ScopeId) (d' : Draft)
    (code : Code) (t : SymbolTable) : Prop where
  /-- The draft is ready for more. -/
  ready : d'.Ready scope
  /-- The table is this one, without its indexes. -/
  symbols : d'.symbols.plain = t
  /-- The code stands at the end. -/
  code : d'.code.toList = d.code.toList ++ code

/-- **Emission at the end of a draft emits this code**, or fails with the
error, if there is one. -/
def Lowers (scope : ScopeId) (m : Drafting Unit)
    (first? : Option EmissionError) (emit : Emit Code) : Prop :=
  ∀ d : Draft, d.Ready scope →
    Answers EmissionError.lowering
      (fun r p => d.Continues scope r.2 p.1 p.2) (m.run d)
      (screened first? (emit.run d.symbols.plain))

namespace Lowers

variable {scope : ScopeId} {m m' : Drafting Unit}
  {first? first'? : Option EmissionError} {emit emit' : Emit Code}

theorem skip : Lowers scope (pure ()) none (pure []) := fun _ hd =>
  .ok ⟨hd, rfl, (List.append_nil _).symm⟩

theorem write (instr : Instr) :
    Lowers scope (Drafting.write instr) none (pure [instr]) := fun _ hd =>
  .ok ⟨⟨hd.inStep, hd.has⟩, rfl, Array.toList_push⟩

theorem fail (error : EmissionError) (emit : Emit Code) :
    Lowers scope (throw error.lowering) (some error) emit :=
  fun _ _ => rfl

/-- **Code comes after code**, and the first error ends it all. -/
theorem seq (h : Lowers scope m first? emit)
    (h' : Lowers scope m' first'? emit') :
    Lowers scope (do m; m') (first? <|> first'?) (do
      let code ← emit
      let code' ← emit'
      return code ++ code') := by
  intro d hd
  -- over the plain table both codes are emitted before they are put together
  let append (p : Code × SymbolTable) : Code × SymbolTable :=
    (p.1 ++ (emit'.run p.2).1, (emit'.run p.2).2)
  show Answers _ _ _ (screened _ (append (emit.run d.symbols.plain)))
  rw [screened_orElse]
  refine (h d hd).run_bind ?_
  intro _ d₁ ⟨code, t₁⟩ ⟨hready, hsymbols, hcode⟩
  have hanswer := h' d₁ hready
  rw [hsymbols] at hanswer
  rw [screened_map (emit'.run t₁) fun p => (code ++ p.1, p.2)]
  refine hanswer.map ?_
  intro _ _ ⟨hready', hsymbols', hcode'⟩
  exact ⟨hready', hsymbols', by rw [hcode', hcode, List.append_assoc]⟩

/-- **A name is taken** before code is emitted. -/
theorem take {name : IndexedTable → Attempt (String × IndexedTable)}
    {name' : SymbolTable → String × SymbolTable}
    {k : String → Drafting Unit} {emit : String → Emit Code}
    (hname : ∀ t : IndexedTable, t.InStep → t.Has scope →
      IndexedTable.Matches (name t) (name' t.plain)
        ∧ (name' t.plain).2.Has scope)
    (hk : ∀ x, Lowers scope (k x) first? (emit x)) :
    Lowers scope (Drafting.take name >>= k) first? (do
      let x ← modifyGet name'
      emit x) := by
  intro d hd
  obtain ⟨⟨t, ht, hstep, hplain⟩, hhas⟩ := hname d.symbols hd.inStep hd.has
  rw [← hplain] at hhas
  have hready : Draft.Ready { d with symbols := t } scope :=
    ⟨hstep, hstep.has_plain.mp hhas⟩
  have hrun : (Drafting.take name >>= k).run d
      = (k (name' d.symbols.plain).1).run { d with symbols := t } := by
    simp [Drafting.take, ht]
  rw [hrun]
  have hanswer := hk (name' d.symbols.plain).1 _ hready
  rw [hplain] at hanswer
  exact hanswer.imp fun _ _ ⟨hready', hsymbols, hcode⟩ =>
    ⟨hready', hsymbols, hcode⟩

variable {site : Site} {k : String → Drafting Unit} {ks : String → Emit Code}

theorem temporary (ty : Ty)
    (hk : ∀ temp, Lowers site.scope (k temp) first? (ks temp)) :
    Lowers site.scope (site.newTemporary ty >>= k) first? (do
      let temp ← site.temporary ty
      ks temp) :=
  take (fun _ hstep hhas => ⟨hstep.freshTemporary hhas ty,
    (SymbolTable.Grows.temporary rfl).has (hstep.has_plain.mpr hhas)⟩) hk

theorem label (hint : String)
    (hk : ∀ label, Lowers site.scope (k label) first? (ks label)) :
    Lowers site.scope (site.newLabel hint >>= k) first? (do
      let label ← site.label hint
      ks label) :=
  take (fun _ hstep hhas => ⟨hstep.freshLabel hhas (some hint),
    SymbolTable.has_grown.mpr (hstep.has_plain.mpr hhas)⟩) hk

theorem constant (text : String)
    (hk : ∀ label, Lowers scope (k label) first? (ks label)) :
    Lowers scope (Drafting.take (·.intern text) >>= k) first? (do
      let label ← Emit.constant text
      ks label) := by
  refine take (fun t hstep hhas => ⟨hstep.intern text, ?_⟩) hk
  have hgrows : SymbolTable.Grows scope t.plain (t.plain.intern text).2 :=
    .intern rfl
  exact hgrows.has (hstep.has_plain.mpr hhas)

/-- One of two instructions is emitted, by a condition. -/
theorem branchJoin {condition : Label → Label → Drafting Unit}
    {emit : Label → Label → Emit Code}
    (h : ∀ yes no, Lowers site.scope (condition yes no) first? (emit yes no))
    (onTrue onFalse : Instr) :
    Lowers site.scope (site.branchJoin condition onTrue onFalse) first?
      (site.select onTrue onFalse emit) := by
  have harms (yes no join : Label) := (h yes no).seq ((write (.label yes)).seq
    ((write onTrue).seq ((write (.jump join)).seq
      ((write (.label no)).seq ((write onFalse).seq (write (.label join)))))))
  simpa [Site.branchJoin, Site.select] using
    label "true" fun yes => label "false" fun no => label "join" fun join =>
      harms yes no join

theorem selectString {condition : Label → Label → Drafting Unit}
    {emit : Label → Label → Emit Code}
    (h : ∀ yes no, Lowers site.scope (condition yes no) first? (emit yes no))
    (dst : Slot) :
    Lowers site.scope (site.selectString condition dst) first?
      (site.selectText dst emit) :=
  branchJoin h _ _

end Lowers

/-! ## Expressions -/

namespace Expr

variable {site : Site} {e : Expr Judged}

/-- **The code for an expression is emitted**, with either destination. -/
structure Lowered (site : Site) (e : Expr Judged) : Prop where
  /-- The code that stores its value. -/
  value (dst : Slot) : Lowers site.scope (lowerValue site e dst)
    e.unconvertible? (e.emit site (.store dst))
  /-- The code that branches on its value. -/
  condition (ifTrue ifFalse : Label) :
    Lowers site.scope (lowerCondition site e ifTrue ifFalse)
      e.unconvertible? (e.emit site (.branch ifTrue ifFalse))

/-- The value of a condition is stored by branching on it. -/
theorem Lowered.of_condition (he : e.isCondition = true)
    (hstore : ∀ dst, e.emit site (.store dst) = site.byBranching
      (fun ifTrue ifFalse => e.emit site (.branch ifTrue ifFalse))
      (.store dst))
    (h : ∀ ifTrue ifFalse,
      Lowers site.scope (lowerCondition site e ifTrue ifFalse)
        e.unconvertible? (e.emit site (.branch ifTrue ifFalse))) :
    e.Lowered site where
  condition := h
  value dst := by
    rw [lowerValue, dif_pos he, hstore]
    have hcode (flag : Slot) :=
      (Lowers.branchJoin h (.set flag 1) (.set flag 0)).seq
        (.write (.move dst flag))
    simpa [Site.materialize, Site.byBranching] using
      Lowers.temporary .bool hcode

/-- What is no condition is stored before it is branched on. -/
theorem Lowered.of_value
    (hcondition : ∀ ifTrue ifFalse, lowerCondition site e ifTrue ifFalse
      = (do
        let temp ← site.newTemporary e.ty
        lowerValue site e temp
        Drafting.write (.branchZero .zero temp ifFalse ifTrue)))
    (hbranch : ∀ ifTrue ifFalse, e.emit site (.branch ifTrue ifFalse)
      = site.byStoring e.ty (fun dst => e.emit site (.store dst))
        (.branch ifTrue ifFalse))
    (h : ∀ dst, Lowers site.scope (lowerValue site e dst)
      e.unconvertible? (e.emit site (.store dst))) :
    e.Lowered site where
  value := h
  condition ifTrue ifFalse := by
    rw [hcondition, hbranch]
    have hcode (temp : Slot) := (h temp).seq
      (.write (.branchZero .zero temp ifFalse ifTrue))
    simpa [Site.byStoring] using Lowers.temporary e.ty hcode

/-- Both operands are stored before an instruction that reads them. -/
theorem operands_lowers {lhs rhs : Expr Judged} (hl : lhs.Lowered site)
    (hr : rhs.Lowered site) (instr : Slot → Slot → Instr) :
    Lowers site.scope (do
        let left ← site.newTemporary lhs.ty
        lowerValue site lhs left
        let right ← site.newTemporary rhs.ty
        lowerValue site rhs right
        Drafting.write (instr left right))
      (lhs.unconvertible? <|> rhs.unconvertible?) (do
        let left ← site.temporary lhs.ty
        let leftCode ← lhs.emit site (.store left)
        let right ← site.temporary rhs.ty
        let rightCode ← rhs.emit site (.store right)
        return leftCode ++ rightCode ++ [instr left right]) := by
  have hright (left right : Slot) :=
    (hr.value right).seq (.write (instr left right))
  have hleft (left : Slot) :=
    (hl.value left).seq (.temporary rhs.ty (hright left))
  simpa [-bind_pure_comp] using Lowers.temporary lhs.ty hleft

/-- A conversion is lowered to its code, or refused. -/
theorem convert_lowers {operand : Expr Judged} (h : operand.Lowered site)
    (note : Judged) (target : Conversion) (dst : Slot) :
    Lowers site.scope (lowerValue site (convert note target operand) dst)
      (unconvertible? (convert note target operand))
      (emit site (convert note target operand) (.store dst)) := by
  rw [lowerValue]
  have hsame := h.value dst
  cases target with
  | toInt =>
    cases hty : operand.ty with
    | int | bool =>
      simpa [isCondition, emit, Site.byStoring, unconvertible?, hty]
        using hsame
    | str =>
      have hcode (temp : Slot) := (h.value temp).seq
        (.write (.strToInt dst temp))
      simpa [isCondition, emit, Site.byStoring, unconvertible?, hty,
        -bind_pure_comp] using Lowers.temporary .str hcode
    | unit =>
      simpa [isCondition, unconvertible?, hty, EmissionError.lowering,
        Conversion.name] using Lowers.fail (.unconvertible .toInt note.span) _
  | toStr =>
    cases hty : operand.ty with
    | str =>
      simpa [isCondition, emit, Site.byStoring, unconvertible?, hty]
        using hsame
    | int =>
      have hcode (temp : Slot) := (h.value temp).seq
        (.write (.intToStr dst temp))
      simpa [isCondition, emit, Site.byStoring, unconvertible?, hty,
        -bind_pure_comp] using Lowers.temporary .int hcode
    | bool =>
      simpa [isCondition, emit, Site.byStoring, unconvertible?, hty,
        -bind_pure_comp] using Lowers.selectString h.condition dst
    | unit =>
      simpa [isCondition, unconvertible?, hty, EmissionError.lowering,
        Conversion.name] using Lowers.fail (.unconvertible .toStr note.span) _

/-- Arguments are set aside. -/
theorem passArguments_lowers (scope : ScopeId) (index : UInt64)
    (temps : List Slot) :
    Lowers scope (passArguments index temps) none
      (pure (setArguments index temps)) := by
  induction temps generalizing index with
  | nil => exact .skip
  | cons temp temps ih =>
    simpa [passArguments, setArguments] using
      (Lowers.write (.setArgument index temp)).seq (ih (index + 1))

/-- Arguments are computed before anything is done with them. -/
theorem lowerArgs_lowers {args : List (Expr Judged)}
    (h : ∀ arg ∈ args, arg.Lowered site) {k : List Slot → Drafting Unit}
    {ks : List Slot → Emit Code}
    (hk : ∀ temps, Lowers site.scope (k temps) none (ks temps)) :
    Lowers site.scope (lowerArgs site args >>= k) (anyUnconvertible? args) (do
      let (code, temps) ← emitArgs site args
      let rest ← ks temps
      return code ++ rest) := by
  induction args generalizing k ks with
  | nil =>
    rw [lowerArgs]
    simpa [emitArgs, anyUnconvertible?] using hk []
  | cons arg args ih =>
    obtain ⟨harg, hargs⟩ := List.forall_mem_cons.mp h
    rw [lowerArgs]
    have hcode (temp : Slot) := (harg.value temp).seq
      (ih hargs fun temps => hk (temp :: temps))
    simpa [emitArgs, anyUnconvertible?, -bind_pure_comp] using
      Lowers.temporary arg.ty hcode

mutual

/-- **Any expression is lowered to the code that is emitted for it.** The
induction is on the expression. That the functions call each other for the
same expression is in `Lowered.of_condition` and `Lowered.of_value`. -/
theorem lowered (site : Site) (e : Expr Judged) : e.Lowered site := by
  match e with
  | lit note (.bool _) | var note _ =>
    refine ⟨fun dst => ?_, fun ifTrue ifFalse => ?_⟩
    · rw [lowerValue]
      exact .write _
    · rw [lowerCondition]
      exact .write _
  | lit note (.int _) | lit note .unit =>
    refine .of_value (fun ifTrue ifFalse => ?_) (fun _ _ => rfl) fun dst => ?_
    · rw [lowerCondition]
    · rw [lowerValue]
      exact .write _
  | lit note (.str s) =>
    refine .of_value (fun ifTrue ifFalse => ?_) (fun _ _ => rfl) fun dst => ?_
    · rw [lowerCondition]
    · rw [lowerValue]
      exact .constant s fun text => .write _
  | binary note (.arith op) lhs rhs =>
    refine .of_value (fun ifTrue ifFalse => ?_) (fun _ _ => rfl) fun dst => ?_
    · rw [lowerCondition]
    · rw [lowerValue]
      exact operands_lowers (lowered site lhs) (lowered site rhs)
        (.arith op dst)
  | binary note (.compare op) lhs rhs =>
    refine .of_condition rfl (fun _ => rfl) fun ifTrue ifFalse => ?_
    rw [lowerCondition]
    exact operands_lowers (lowered site lhs) (lowered site rhs)
      (.branchCompare op · · ifTrue ifFalse)
  | binary note (.logic .and) lhs rhs =>
    refine .of_condition rfl (fun _ => rfl) fun ifTrue ifFalse => ?_
    rw [lowerCondition]
    have hcode (next : Label) :=
      ((lowered site lhs).condition next ifFalse).seq
        ((Lowers.write (.label next)).seq
          ((lowered site rhs).condition ifTrue ifFalse))
    simpa [emit, Site.byBranching, unconvertible?, -bind_pure_comp] using
      Lowers.label "and" hcode
  | binary note (.logic .or) lhs rhs =>
    refine .of_condition rfl (fun _ => rfl) fun ifTrue ifFalse => ?_
    rw [lowerCondition]
    have hcode (next : Label) :=
      ((lowered site lhs).condition ifTrue next).seq
        ((Lowers.write (.label next)).seq
          ((lowered site rhs).condition ifTrue ifFalse))
    simpa [emit, Site.byBranching, unconvertible?, -bind_pure_comp] using
      Lowers.label "or" hcode
  | not note operand =>
    refine .of_condition rfl (fun _ => rfl) fun ifTrue ifFalse => ?_
    rw [lowerCondition]
    exact (lowered site operand).condition ifFalse ifTrue
  | input note prompt =>
    refine .of_value (fun ifTrue ifFalse => ?_) (fun _ _ => rfl) fun dst => ?_
    · rw [lowerCondition]
    · rw [lowerValue]
      have hcode (temp : Slot) := ((lowered site prompt).value temp).seq
        ((Lowers.write (.printString temp)).seq (.write (.readInt dst)))
      simpa [isCondition, emit, Site.byStoring, unconvertible?,
        -bind_pure_comp] using Lowers.temporary .str hcode
  | convert note target operand =>
    refine .of_value (fun ifTrue ifFalse => ?_) (fun _ _ => rfl) fun dst => ?_
    · rw [lowerCondition]
    · exact convert_lowers (lowered site operand) note target dst
  | call note callee args =>
    refine .of_value (fun ifTrue ifFalse => ?_) (fun _ _ => rfl) fun dst => ?_
    · rw [lowerCondition]
    · rw [lowerValue]
      have hpass (temps : List Slot) :=
        (passArguments_lowers site.scope 0 temps).seq
          ((Lowers.write (.call callee)).seq (.write (.fetchResult dst)))
      simpa [isCondition, emit, Site.byStoring, unconvertible?,
        -bind_pure_comp] using
        lowerArgs_lowers (lowered_of_mem site args) hpass

theorem lowered_of_mem (site : Site) (args : List (Expr Judged)) :
    ∀ arg ∈ args, arg.Lowered site := by
  match args with
  | [] => simp
  | arg :: args =>
    exact List.forall_mem_cons.mpr ⟨lowered site arg, lowered_of_mem site args⟩

end

theorem lowerCall_lowers (site : Site) (callee : Ident)
    (args : List (Expr Judged)) :
    Lowers site.scope (lowerCall site callee args) (anyUnconvertible? args)
      (emitCall site callee args) := by
  have hpass (temps : List Slot) :=
    (passArguments_lowers site.scope 0 temps).seq (.write (.call callee))
  simpa [lowerCall, emitCall, -bind_pure_comp] using
    lowerArgs_lowers (lowered_of_mem site args) hpass

end Expr

/-! ## Statements -/

namespace Site

variable (site : Site)

theorem lowerConstant_lowers (text : Label) :
    Lowers site.scope (site.lowerConstant text) none
      (site.printConstant text) := by
  have hcode (temp : Slot) : Lowers site.scope _ _ _ :=
    (Lowers.write (.loadString temp text)).seq (.write (.printString temp))
  simpa [lowerConstant, printConstant, -bind_pure_comp] using
    Lowers.temporary .str hcode

theorem lowerReturn_lowers (result : Slot) :
    Lowers site.scope (site.lowerReturn result) none
      (pure (site.emitReturn result)) := by
  simpa [lowerReturn, emitReturn] using
    (Lowers.write (.setResult result)).seq (.write (.jump site.exit))

/-- An argument is written. -/
theorem lowerPrint_lowers (arg : Expr Judged) :
    Lowers site.scope (site.lowerPrint arg) arg.unconvertible?
      (site.printArg arg) := by
  have harg := arg.lowered site
  unfold lowerPrint printArg Expr.emitValue Expr.emitCondition
  cases arg.ty with
  | int =>
    have hcode (temp : Slot) := (harg.value temp).seq (.write (.printInt temp))
    simpa [-bind_pure_comp] using Lowers.temporary .int hcode
  | str =>
    have hcode (temp : Slot) :=
      (harg.value temp).seq (.write (.printString temp))
    simpa [-bind_pure_comp] using Lowers.temporary .str hcode
  | bool =>
    have hcode (temp : Slot) := (Lowers.selectString harg.condition temp).seq
      (.write (.printString temp))
    simpa [-bind_pure_comp] using Lowers.temporary .str hcode
  | unit =>
    have hcode (unused : Slot) := (harg.value unused).seq
      (site.lowerConstant_lowers site.constants.unit)
    simpa [-bind_pure_comp] using Lowers.temporary .unit hcode

/-- Arguments after the first are written with a blank before each. -/
theorem lowerPrints_succ_lowers (index : Nat) (args : List (Expr Judged)) :
    Lowers site.scope (site.lowerPrints (index + 1) args)
      (Expr.anyUnconvertible? args) (site.printMore args) := by
  induction args generalizing index with
  | nil => exact .skip
  | cons arg args ih =>
    have hcode := (site.lowerConstant_lowers site.constants.space).seq
      ((site.lowerPrint_lowers arg).seq (ih (index + 1)))
    simpa [lowerPrints, printMore, Expr.anyUnconvertible?, -bind_pure_comp]
      using hcode

/-- Arguments are written. -/
theorem lowerPrints_lowers (args : List (Expr Judged)) :
    Lowers site.scope (site.lowerPrints 0 args)
      (Expr.anyUnconvertible? args) (site.printArgs args) := by
  cases args with
  | nil => exact .skip
  | cons arg args =>
    simpa [lowerPrints, printArgs, Expr.anyUnconvertible?, -bind_pure_comp]
      using (site.lowerPrint_lowers arg).seq
        (site.lowerPrints_succ_lowers 0 args)

end Site

namespace Stmt

mutual

/-- **Any statement is lowered to its code.** -/
theorem lower_lowers (site : Site) (stmt : Stmt Judged) :
    Lowers site.scope (lower site stmt) stmt.unconvertible?
      (stmt.emit site) := by
  match stmt with
  | pass _ => exact .write _
  | introduce _ name _ init => exact (init.lowered site).value name
  | assign _ name value => exact (value.lowered site).value name
  | call _ callee args => exact Expr.lowerCall_lowers site callee args
  | update note op name operand =>
    have hcode (current temp : Slot) := ((operand.lowered site).value temp).seq
      (.write (.arith op.op name current temp))
    have hmove (current : Slot) := (Lowers.write (.move current name)).seq
      (.temporary operand.ty (hcode current))
    simpa [lower, emit, unconvertible?, Expr.emitValue, -bind_pure_comp]
      using Lowers.temporary .int hmove
  | print _ args =>
    simpa [lower, emit, unconvertible?, -bind_pure_comp] using
      (site.lowerPrints_lowers args).seq
        (site.lowerConstant_lowers site.constants.newline)
  | ret _ value =>
    have hcode (temp : Slot) := ((value.lowered site).value temp).seq
      (site.lowerReturn_lowers temp)
    simpa [lower, emit, unconvertible?, Expr.emitValue, -bind_pure_comp]
      using Lowers.temporary value.ty hcode
  | retUnit _ =>
    have hcode (temp : Slot) := (Lowers.write (.set temp 0)).seq
      (site.lowerReturn_lowers temp)
    simpa [lower, emit, unconvertible?, -bind_pure_comp] using
      Lowers.temporary .unit hcode
  | ifElse _ cond thenBlock elseBlock =>
    have hcode (thenLabel elseLabel done : Label) :=
      ((cond.lowered site).condition thenLabel elseLabel).seq
        ((Lowers.write (.label thenLabel)).seq
          ((lowerAll_lowers site thenBlock.stmts).seq
            ((Lowers.write (.jump done)).seq
              ((Lowers.write (.label elseLabel)).seq
                ((lowerAll_lowers site elseBlock.stmts).seq
                  (.write (.label done)))))))
    simpa [lower, emit, unconvertible?, Expr.emitCondition, -bind_pure_comp]
      using Lowers.label "then" fun thenLabel =>
        .label "else" fun elseLabel =>
          .label "endif" fun done => hcode thenLabel elseLabel done
  | whileLoop _ cond body =>
    have hcode (again start done : Label) :=
      (Lowers.write (.label again)).seq
        (((cond.lowered site).condition start done).seq
          ((Lowers.write (.label start)).seq
            ((lowerAll_lowers site body.stmts).seq
              ((Lowers.write (.jump again)).seq (.write (.label done))))))
    simpa [lower, emit, unconvertible?, Expr.emitCondition, -bind_pure_comp]
      using Lowers.label "loop" fun again =>
        .label "body" fun start =>
          .label "endwhile" fun done => hcode again start done

/-- Any statements are lowered to their code. -/
theorem lowerAll_lowers (site : Site) (stmts : List (Stmt Judged)) :
    Lowers site.scope (lowerAll site stmts) (anyUnconvertible? stmts)
      (emitAll site stmts) := by
  match stmts with
  | [] => exact .skip
  | stmt :: rest =>
    simpa [lowerAll, emitAll, anyUnconvertible?, -bind_pure_comp] using
      (lower_lowers site stmt).seq (lowerAll_lowers site rest)

end

end Stmt

/-- The code of a body stands between its two labels. -/
theorem Site.lowerCode_lowers (site : Site) (entry : Label)
    (body : Block (Stmt Judged)) :
    Lowers site.scope (site.lowerCode entry body)
      (Stmt.anyUnconvertible? body.stmts) (do
        let code ← Stmt.emitAll site body.stmts
        return .label entry :: .enter :: code
          ++ [.label site.exit, .leave]) := by
  have hcode := (Lowers.write (.label entry)).seq ((Lowers.write .enter).seq
    ((Stmt.lowerAll_lowers site body.stmts).seq
      ((Lowers.write (.label site.exit)).seq (.write .leave))))
  simpa [Site.lowerCode, -bind_pure_comp] using hcode

/-! ## Programs -/

/-- **An assembly without the indexes of its table.** -/
def IndexedAssembly.plain (a : IndexedAssembly) : Assembly :=
  ⟨a.routines, a.main, a.symbols.plain⟩

/-- What is assembled over an indexed table goes with what is assembled over
the table without its indexes. -/
def Assembled {α : Type} : α × IndexedTable → α × SymbolTable → Prop
  | (a, t), (a', t') => a = a' ∧ t.InStep ∧ t.plain = t'

/-- The scope that was opened for a body, or that there is none. -/
def SymbolTable.bodyScope (t : SymbolTable) (owner : Ident) :
    Emitted ScopeId :=
  match t.scopeOf? owner with
  | none => .error (.missingScope owner)
  | some scope => .ok scope

/-- The table with the label of a body, or that its name is taken. -/
def SymbolTable.declareEntry (t : SymbolTable) (name : Ident) :
    Emitted SymbolTable :=
  match t.declare .global (.label name) with
  | .error _ => .error (.duplicateEntry name)
  | .ok t => .ok t

/-- A routine is emitted in three steps, each of which may fail. -/
theorem emitRoutine_eq (constants : Constants) (t : SymbolTable)
    (name : Ident) (params : List (Slot × Ty)) (ret : Ty)
    (body : Block (Stmt Judged)) :
    emitRoutine constants t name params ret body = (do
      let scope ← t.bodyScope name
      let t ← t.declareEntry name
      let (code, t) ← screened (Stmt.anyUnconvertible? body.stmts)
        ((emitBody constants scope name body.stmts).run t)
      return (⟨⟨name, params, ret, scope⟩, code⟩, t)) := by
  unfold emitRoutine SymbolTable.bodyScope SymbolTable.declareEntry
  cases t.scopeOf? name with
  | none => rfl
  | some scope =>
    cases t.declare .global (.label name) with
    | error _ => rfl
    | ok t =>
      cases Stmt.anyUnconvertible? body.stmts <;> rfl

namespace Assembling

variable {t : IndexedTable}

/-- The scope of a body is found in both tables, or in none. -/
theorem scopeOf_answers (h : t.InStep) (owner : Ident) :
    Answers EmissionError.lowering
      (fun r scope => r.1 = scope ∧ r.2 = t ∧ t.Has scope)
      ((scopeOf owner).run t) (t.plain.bodyScope owner) := by
  unfold scopeOf SymbolTable.bodyScope
  cases hscope : t.plain.scopeOf? owner with
  | none =>
    show _ = _
    simp [h.scopeOf?, hscope]
    rfl
  | some scope =>
    refine ⟨(scope, t), ?_, rfl, rfl, ?_⟩
    · simp [h.scopeOf?, hscope]
    · exact h.has_plain.mp (SymbolTable.has_of_scopeOf? hscope)

/-- The name of a body is declared in both tables, or taken in both. -/
theorem entryLabel_answers (h : t.InStep) (name : Ident) :
    Answers EmissionError.lowering
      (fun r t' => r.1 = name ∧ r.2.InStep ∧ r.2.plain = t'
        ∧ ∀ id, t.Has id → r.2.Has id)
      ((entryLabel name).run t) (t.plain.declareEntry name) := by
  unfold entryLabel SymbolTable.declareEntry
  have hkind : ∀ text, (Symbol.label name).kind ≠ .constant text :=
    fun _ => SymbolKind.noConfusion
  obtain ⟨t', ht, hstep, hplain⟩ | ⟨error, ht, hplain⟩ :=
    h.declare h.has_global hkind
  · have hhas (id : ScopeId) (hid : t.Has id) : t'.Has id := by
      rw [← hstep.has_plain, SymbolTable.has_declare hplain, h.has_plain]
      exact hid
    rw [hplain]
    exact ⟨(name, t'), by simp [ht], rfl, hstep, rfl, hhas⟩
  · rw [hplain]
    show _ = _
    simp [ht]
    rfl

/-- **The code of a body is emitted.** -/
theorem lowerBody_answers (h : t.InStep) {scope : ScopeId}
    (hscope : t.Has scope) (constants : Constants) (entry : Label)
    (body : Block (Stmt Judged)) :
    Answers EmissionError.lowering Assembled
      ((lowerBody constants entry scope body).run t)
      (screened (Stmt.anyUnconvertible? body.stmts)
        ((emitBody constants scope entry body.stmts).run t.plain)) := by
  obtain ⟨t₁, ht, hstep, hplain⟩ := h.freshLabel hscope (some "done")
  let site : Site :=
    ⟨scope, (t.plain.freshLabel scope (some "done")).1, constants⟩
  have hready : Draft.Ready ⟨t₁, #[]⟩ scope := by
    refine ⟨hstep, ?_⟩
    rw [← hstep.has_plain, hplain]
    exact SymbolTable.has_grown.mpr (h.has_plain.mpr hscope)
  have hrun : (lowerBody constants entry scope body).run t = (do
      let r ← (site.lowerCode entry body).run ⟨t₁, #[]⟩
      return (r.2.code.toList, r.2.symbols)) := by
    simp [lowerBody, perform, ht, site]
  have hcode := site.lowerCode_lowers entry body ⟨t₁, #[]⟩ hready
  simp only [hplain] at hcode
  rw [hrun]
  refine hcode.bind_ok fun r p hcontinues =>
    .ok ⟨?_, hcontinues.ready.inStep, hcontinues.symbols⟩
  simpa using hcontinues.code

/-- **A routine is emitted.** -/
theorem lowerRoutine_answers (h : t.InStep) (constants : Constants)
    (name : Ident) (params : List (Slot × Ty)) (ret : Ty)
    (body : Block (Stmt Judged)) :
    Answers EmissionError.lowering Assembled
      ((lowerRoutine constants name params ret body).run t)
      (emitRoutine constants t.plain name params ret body) := by
  rw [emitRoutine_eq]
  refine .run_bind (scopeOf_answers h name) ?_
  rintro scope t _ ⟨rfl, rfl, hscope⟩
  refine .run_bind (entryLabel_answers h name) ?_
  rintro entry t₁ _ ⟨hentry, hstep, rfl, hhas⟩
  cases hentry
  refine .run_bind
    (lowerBody_answers hstep (hhas _ hscope) constants _ body) ?_
  rintro code t₂ ⟨_, _⟩ ⟨rfl, hstep', rfl⟩
  exact .ok ⟨rfl, hstep', rfl⟩

/-- The routines of definitions are emitted. -/
theorem lowerDefinitions_answers {t : IndexedTable} (h : t.InStep)
    (constants : Constants) (ds : List (Definition Judged)) :
    Answers EmissionError.lowering Assembled
      ((lowerDefinitions constants ds).run t)
      (emitDefinitions constants t.plain ds) := by
  induction ds generalizing t with
  | nil => exact .ok ⟨rfl, h, rfl⟩
  | cons d ds ih =>
    refine .run_bind (lowerRoutine_answers h constants _ _ _ _) ?_
    rintro _ t₁ ⟨routine, _⟩ ⟨rfl, hstep, rfl⟩
    refine .run_bind (ih hstep) ?_
    rintro _ t₂ ⟨routines, _⟩ ⟨rfl, hstep', rfl⟩
    exact .ok ⟨rfl, hstep', rfl⟩

/-- An operation on both tables: it does not break off, and it keeps them
together. -/
def Performs {α : Type} (m : Assembling α) (emit : Emit α) : Prop :=
  ∀ t : IndexedTable, t.InStep → ∃ t' : IndexedTable,
    m.run t = pure ((emit.run t.plain).1, t') ∧ t'.InStep
      ∧ t'.plain = (emit.run t.plain).2

namespace Performs

variable {α β : Type} {m : Assembling α} {emit : Emit α}

theorem pure (a : α) : Performs (Pure.pure a) (Pure.pure a) :=
  fun t h => ⟨t, rfl, h, rfl⟩

theorem bind {k : α → Assembling β} {ks : α → Emit β}
    (h : Performs m emit) (hk : ∀ a, Performs (k a) (ks a)) :
    Performs (m >>= k) (emit >>= ks) := by
  intro t ht
  obtain ⟨t₁, hrun, hstep, hplain⟩ := h t ht
  obtain ⟨t₂, hrun', hstep', hplain'⟩ := hk _ t₁ hstep
  rw [hplain] at hrun' hplain'
  refine ⟨t₂, ?_, hstep', hplain'⟩
  rw [StateT.run_bind, hrun, pure_bind]
  exact hrun'

/-- A text gets its name. -/
theorem intern (text : String) :
    Performs (perform (·.intern text)) (Emit.constant text) := by
  intro t h
  obtain ⟨t', ht, hstep, hplain⟩ := h.intern text
  refine ⟨t', ?_, hstep, hplain⟩
  simp [perform, ht]
  rfl

theorem constants : Performs Assembling.constants Emit.constants :=
  .bind (.intern _) fun _ => .bind (.intern _) fun _ =>
    .bind (.intern _) fun _ => .bind (.intern _) fun _ =>
      .bind (.intern _) fun _ => .pure _

end Performs

end Assembling

open Assembling

/-- **Emission over an indexed table is emission.** -/
theorem IndexedProgram.lower_answers (p : IndexedProgram)
    (h : p.symbols.InStep) :
    Answers EmissionError.lowering
      (fun a a' => a.symbols.InStep ∧ a.plain = a') p.lower p.plain.emit := by
  obtain ⟨t, ht, hstep, hplain⟩ := Performs.constants p.symbols h
  simp only [TypedProgram.emit, IndexedProgram.plain]
  generalize Emit.constants.run p.symbols.plain = named at ht hplain
  obtain ⟨constants, table⟩ := named
  have hrun : p.lower = (do
      let r ← (lowerDefinitions constants p.program.definitions).run t
      let r' ← (lowerRoutine constants Program.entryPoint [] .unit
        p.program.main).run r.2
      return ⟨r.1, r'.1, r'.2⟩) := by
    simp [IndexedProgram.lower, ht]
  have hdefinitions :=
    lowerDefinitions_answers hstep constants p.program.definitions
  rw [hplain] at hdefinitions
  rw [hrun]
  refine hdefinitions.bind ?_
  rintro ⟨routines, t₁⟩ ⟨_, _⟩ ⟨rfl, hstep₁, rfl⟩
  refine (lowerRoutine_answers hstep₁ _ _ _ _ _).bind ?_
  rintro ⟨main, t₂⟩ ⟨_, _⟩ ⟨rfl, hstep₂, rfl⟩
  exact .ok ⟨hstep₂, rfl⟩

/-- What an error is over an indexed table. -/
def CompileError.indexed : CompileError → IndexedError
  | .typing error => .typing error
  | .emission error => .lowering error.lowering

/-- A reader is told the same of both errors. -/
theorem CompileError.diagnostic_indexed (error : CompileError) :
    error.indexed.diagnostic = error.diagnostic := by
  cases error with
  | typing error => rfl
  | emission error => exact error.diagnostic_lowering

/-- **Compiling over an indexed table is compiling**: it does not break off,
it refuses the same programs for the same reasons, and the assembly is the
same without the indexes of its table. -/
theorem Program.compileIndexed_answers (p : Program Span) :
    Answers CompileError.indexed
      (fun a a' => a.symbols.InStep ∧ a.plain = a') p.compileIndexed
      p.compile := by
  have hcheck := p.checkIndexed_agrees
  unfold compile
  cases hp : p.check with
  | error error =>
    rw [hp] at hcheck
    have hcheck : p.checkIndexed.run = some (.error error) := hcheck
    show p.compileIndexed = _
    simp [compileIndexed, hcheck]
    rfl
  | ok typed =>
    rw [hp] at hcheck
    obtain ⟨indexed, hindexed, hstep, rfl⟩ := hcheck
    have hlower := indexed.lower_answers hstep
    show Answers _ _ _ (indexed.plain.emit.mapError CompileError.emission)
    cases he : indexed.plain.emit with
    | error error =>
      rw [he] at hlower
      have hlower : indexed.lower.run = some (.error error.lowering) := hlower
      show p.compileIndexed = _
      simp [compileIndexed, hindexed, hlower]
      rfl
    | ok a =>
      rw [he] at hlower
      obtain ⟨a', ha', h⟩ := hlower
      refine ⟨a', ?_, h⟩
      show p.compileIndexed = _
      simp [compileIndexed, hindexed, ha']
      rfl

end Primer
