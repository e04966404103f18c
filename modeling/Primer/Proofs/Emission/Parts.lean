import Primer.Proofs.Emission.Routines

/-!
# The parts of emitted code

Code is emitted for expressions, statements and blocks, and on the way code is
emitted for the expressions, statements and blocks inside of them. What code
is emitted for at one go is a *fragment*, and the code that comes of it is a
*segment*. A segment consists of instructions of its own and of the segments
that are nested in it.

`Fragment.parts` opens a fragment by one level: where the emitter emits a
fragment inside, it notes which one, and over which table. That is another way
to say what the emitter does, and `Fragment.emit_eq` says that it is the same:
the code is its parts put together. Which labels the parts leave for is then a
matter of one level as well (`Part.Make`).
-/

namespace Primer

open SymbolTable

/-! ## Fragments and segments -/

/-- **What code is emitted for** at one go. -/
inductive Fragment where
  /-- An expression, with a destination for its value. -/
  | expr (e : Expr Judged) (dest : Destination)
  /-- A statement. -/
  | stmt (s : Stmt Judged)
  /-- The statements of a block. -/
  | block (stmts : List (Stmt Judged))

namespace Fragment

variable (site : Site)

/-- The code for a fragment. -/
def emit : Fragment → Emit Code
  | expr e dest => e.emit site dest
  | stmt s => s.emit site
  | block stmts => Stmt.emitAll site stmts

/-- The labels that a fragment is given to leave for: the two of a branch, or
the exit of the body for a return. -/
def exits : Fragment → List Label
  | expr _ dest => dest.exits
  | stmt _ | block _ => [site.exit]

end Fragment

/-- **A segment**: a fragment, and the table over which it is emitted. -/
structure Segment where
  /-- What the code is emitted for. -/
  fragment : Fragment
  /-- The table before. -/
  start : SymbolTable

namespace Segment

variable (site : Site) (s : Segment)

/-- The code of the segment. -/
def code : Code := ((s.fragment.emit site).run s.start).1

/-- The table after it. -/
def stop : SymbolTable := ((s.fragment.emit site).run s.start).2

end Segment

/-- **A part of the code for a fragment.** -/
inductive Part where
  /-- Instructions of its own. -/
  | own (code : Code)
  /-- The segment of a fragment inside. -/
  | nested (s : Segment)

namespace Part

variable (site : Site)

/-- The code of a part. -/
def code : Part → Code
  | own code => code
  | nested s => s.code site

/-- The labels that a part may leave for. -/
def exits : Part → List Label
  | own code => code.targets
  | nested s => s.fragment.exits site

/-- The labels that the instructions of its own define. -/
def ownLabels : Part → List Label
  | own code => code.labels
  | nested _ => []

/-- **The code of parts put together.** -/
def codeOf (parts : List Part) : Code := parts.flatMap (code site)

/-- The labels that instructions of their own define. -/
def labelsOf (parts : List Part) : List Label := parts.flatMap ownLabels

variable {site}

@[simp] theorem codeOf_nil : codeOf site [] = [] := rfl

@[simp] theorem codeOf_cons (part : Part) (parts : List Part) :
    codeOf site (part :: parts) = part.code site ++ codeOf site parts := rfl

@[simp] theorem codeOf_append (parts rest : List Part) :
    codeOf site (parts ++ rest) = codeOf site parts ++ codeOf site rest :=
  List.flatMap_append

@[simp] theorem labelsOf_append (parts rest : List Part) :
    labelsOf (parts ++ rest) = labelsOf parts ++ labelsOf rest :=
  List.flatMap_append

end Part

/-! ## The parts of a fragment -/

/-- Code as a part of its own. -/
def Emit.own (x : Emit Code) : Emit (List Part) := do
  let code ← x
  return [.own code]

namespace Site

variable (site : Site)

/-- **Emits a fragment inside**, and notes over which table. -/
def nested (f : Fragment) : Emit Part := do
  let start ← get
  let _ ← f.emit site
  return .nested ⟨f, start⟩

/-- An operand, stored in a temporary, and instructions that use it. -/
def operandParts (ty : Ty) (operand : Expr Judged) (use : Slot → Code) :
    Emit (List Part) := do
  let temp ← site.temporary ty
  let part ← site.nested (.expr operand (.store temp))
  return [part, .own (use temp)]

/-- Two operands, and an instruction that uses them. -/
def binaryParts (lhs rhs : Expr Judged) (use : Slot → Slot → Instr) :
    Emit (List Part) := do
  let left ← site.temporary lhs.ty
  let leftPart ← site.nested (.expr lhs (.store left))
  let right ← site.temporary rhs.ty
  let rightPart ← site.nested (.expr rhs (.store right))
  return [leftPart, rightPart, .own [use left right]]

/-- Two conditions with a label between them, to which the first may go. -/
def linkedParts (hint : String) (lhs rhs : Expr Judged)
    (left : Label → Destination) (right : Destination) :
    Emit (List Part) := do
  let next ← site.label hint
  let leftPart ← site.nested (.expr lhs (left next))
  let rightPart ← site.nested (.expr rhs right)
  return [leftPart, .own [.label next], rightPart]

/-- One of two instructions, by the value of an expression. -/
def selectParts (e : Expr Judged) (onTrue onFalse : Instr) :
    Emit (List Part) := do
  let yes ← site.label "true"
  let no ← site.label "false"
  let join ← site.label "join"
  let condition ← site.nested (.expr e (.branch yes no))
  return [condition, .own
    [.label yes, onTrue, .jump join, .label no, onFalse, .label join]]

/-- One of the two texts of a truth value. -/
def selectTextParts (dst : Slot) (e : Expr Judged) : Emit (List Part) :=
  site.selectParts e (.loadString dst site.constants.yes)
    (.loadString dst site.constants.no)

/-- An expression whose code stores the value, for any destination. -/
def storingParts (e : Expr Judged) (value : Slot → Emit (List Part)) :
    Destination → Emit (List Part)
  | .store dst => value dst
  | .branch ifTrue ifFalse => site.operandParts e.ty e fun temp =>
    [.branchZero .zero temp ifFalse ifTrue]

/-- An expression whose code branches on the value, for any destination. -/
def branchingParts (e : Expr Judged)
    (condition : Label → Label → Emit (List Part)) :
    Destination → Emit (List Part)
  | .branch ifTrue ifFalse => condition ifTrue ifFalse
  | .store dst => do
    let flag ← site.temporary .bool
    let choice ← site.selectParts e (.set flag 1) (.set flag 0)
    return choice ++ [.own [.move dst flag]]

end Site

namespace Expr

variable (site : Site)

/-- The parts of the code that computes arguments, and the temporaries that
then hold them. -/
def argParts : List (Expr Judged) → Emit (List Part × List Slot)
  | [] => return ([], [])
  | arg :: args => do
    let temp ← site.temporary arg.ty
    let part ← site.nested (.expr arg (.store temp))
    let (rest, temps) ← argParts args
    return (part :: rest, temp :: temps)

/-- The parts of the code of a call, up to its result. -/
def callParts (callee : Ident) (args : List (Expr Judged)) (rest : Code) :
    Emit (List Part) := do
  let (parts, temps) ← argParts site args
  return parts ++ [.own (setArguments 0 temps), .own (.call callee :: rest)]

/-- **The parts of the code for an expression.** -/
def emitParts (e : Expr Judged) : Destination → Emit (List Part) :=
  match e with
  | lit _ (.int n) => site.storingParts e fun dst =>
    return [.own [.set dst n]]
  | lit _ (.str s) => site.storingParts e fun dst => do
    let text ← Emit.constant s
    return [.own [.loadString dst text]]
  | lit _ (.bool b) => fun dest => Emit.own (emitBool b dest)
  | lit _ .unit => site.storingParts e fun dst => return [.own [.set dst 0]]
  | var _ name => fun dest => Emit.own (emitVariable name dest)
  | binary _ (.arith op) lhs rhs => site.storingParts e fun dst =>
    site.binaryParts lhs rhs (.arith op dst)
  | binary _ (.compare op) lhs rhs => site.branchingParts e
    fun ifTrue ifFalse => site.binaryParts lhs rhs fun left right =>
      .branchCompare op left right ifTrue ifFalse
  | binary _ (.logic .and) lhs rhs => site.branchingParts e
    fun ifTrue ifFalse => site.linkedParts "and" lhs rhs
      (fun next => .branch next ifFalse) (.branch ifTrue ifFalse)
  | binary _ (.logic .or) lhs rhs => site.branchingParts e
    fun ifTrue ifFalse => site.linkedParts "or" lhs rhs
      (fun next => .branch ifTrue next) (.branch ifTrue ifFalse)
  | not _ operand => site.branchingParts e fun ifTrue ifFalse => do
    let part ← site.nested (.expr operand (.branch ifFalse ifTrue))
    return [part]
  | input _ prompt => site.storingParts e fun dst =>
    site.operandParts .str prompt fun temp =>
      [.printString temp, .readInt dst]
  | convert _ target operand => site.storingParts e fun dst =>
    match target, operand.ty with
    | .toInt, .str =>
      site.operandParts .str operand fun temp => [.strToInt dst temp]
    | .toStr, .int =>
      site.operandParts .int operand fun temp => [.intToStr dst temp]
    | .toStr, .bool => site.selectTextParts dst operand
    | _, _ => do
      let part ← site.nested (.expr operand (.store dst))
      return [part]
  | call _ callee args => site.storingParts e fun dst =>
    callParts site callee args [.fetchResult dst]

end Expr

namespace Site

variable (site : Site)

/-- The parts of the code that writes a value. -/
def printParts (arg : Expr Judged) : Emit (List Part) :=
  match arg.ty with
  | .int => site.operandParts .int arg fun temp => [.printInt temp]
  | .str => site.operandParts .str arg fun temp => [.printString temp]
  | .bool => do
    let temp ← site.temporary .str
    let choice ← site.selectTextParts temp arg
    return choice ++ [.own [.printString temp]]
  | .unit => do
    let unused ← site.temporary .unit
    let part ← site.nested (.expr arg (.store unused))
    let print ← Emit.own (site.printConstant site.constants.unit)
    return part :: print

/-- The parts of the code that writes values, each after a blank. -/
def moreParts : List (Expr Judged) → Emit (List Part)
  | [] => return []
  | arg :: args => do
    let space ← Emit.own (site.printConstant site.constants.space)
    let parts ← site.printParts arg
    let rest ← moreParts args
    return space ++ parts ++ rest

/-- The parts of the code that writes values with a blank between two. -/
def lineParts : List (Expr Judged) → Emit (List Part)
  | [] => return []
  | arg :: args => do
    let parts ← site.printParts arg
    let rest ← site.moreParts args
    return parts ++ rest

end Site

namespace Stmt

variable (site : Site)

/-- **The parts of the code for a statement.** -/
def emitParts : Stmt Judged → Emit (List Part)
  | introduce _ name _ value | assign _ name value => do
    let part ← site.nested (.expr value (.store name))
    return [part]
  | update _ op name operand => do
    let current ← site.temporary .int
    let temp ← site.temporary operand.ty
    let part ← site.nested (.expr operand (.store temp))
    return [.own [.move current name], part,
      .own [.arith op.op name current temp]]
  | pass _ => return [.own [.nop]]
  | print _ args => do
    let parts ← site.lineParts args
    let newline ← Emit.own (site.printConstant site.constants.newline)
    return parts ++ newline
  | ret _ value =>
    site.operandParts value.ty value fun temp => site.emitReturn temp
  | retUnit _ => do
    let temp ← site.temporary .unit
    return [.own (.set temp 0 :: site.emitReturn temp)]
  | call _ callee args => Expr.callParts site callee args []
  | ifElse _ cond thenBlock elseBlock => do
    let thenLabel ← site.label "then"
    let elseLabel ← site.label "else"
    let done ← site.label "endif"
    let condPart ← site.nested (.expr cond (.branch thenLabel elseLabel))
    let thenPart ← site.nested (.block thenBlock.stmts)
    let elsePart ← site.nested (.block elseBlock.stmts)
    return [condPart, .own [.label thenLabel], thenPart,
      .own [.jump done, .label elseLabel], elsePart, .own [.label done]]
  | whileLoop _ cond body => do
    let again ← site.label "loop"
    let start ← site.label "body"
    let done ← site.label "endwhile"
    let condPart ← site.nested (.expr cond (.branch start done))
    let bodyPart ← site.nested (.block body.stmts)
    return [.own [.label again], condPart, .own [.label start], bodyPart,
      .own [.jump again, .label done]]

/-- The parts of the code for a block: its statements. -/
def blockParts : List (Stmt Judged) → Emit (List Part)
  | [] => return []
  | stmt :: stmts => do
    let part ← site.nested (.stmt stmt)
    let rest ← blockParts stmts
    return part :: rest

end Stmt

/-- **The parts of the code for a fragment.** -/
def Fragment.parts (site : Site) : Fragment → Emit (List Part)
  | expr e dest => e.emitParts site dest
  | stmt s => s.emitParts site
  | block stmts => Stmt.blockParts site stmts

/-- **The parts of a segment.** -/
def Segment.parts (site : Site) (s : Segment) : List Part :=
  ((s.fragment.parts site).run s.start).1

/-! ## What parts make -/

/-- **Parts make code** that was given the labels `exits`, if they are emitted
from a table on. -/
structure Part.Make (site : Site) (start : SymbolTable) (exits : List Label)
    (code : Code) (parts : List Part) : Prop where
  /-- The code is the parts put together. -/
  code_eq : codeOf site parts = code
  /-- A part leaves for labels that other parts define themselves, or for
  those that were given. -/
  exits : ∀ part ∈ parts, part.exits site ⊆ labelsOf parts ++ exits
  /-- The fragments inside are emitted after the table. -/
  grows : ∀ s, .nested s ∈ parts → Grows site.scope start s.start

namespace Part.Make

variable {site : Site} {start : SymbolTable} {exits : List Label}
  {code rest : Code} {parts others : List Part}

theorem nil : Make site start exits [] [] := ⟨rfl, nofun, nofun⟩

/-- Some parts and then others. -/
theorem append (h : Make site start exits code parts)
    (h' : Make site start exits rest others) :
    Make site start exits (code ++ rest) (parts ++ others) where
  code_eq := by rw [codeOf_append, h.code_eq, h'.code_eq]
  exits part hpart l hl := by
    simp only [labelsOf_append, List.mem_append]
    rcases List.mem_append.mp hpart with hpart | hpart
    · exact (List.mem_append.mp (h.exits part hpart hl)).imp_left Or.inl
    · exact (List.mem_append.mp (h'.exits part hpart hl)).imp_left Or.inr
  grows s hs := (List.mem_append.mp hs).elim (h.grows s) (h'.grows s)

/-- Labels that the parts define themselves need not be given. -/
theorem close (names : List Label)
    (h : Make site start (names ++ exits) code parts)
    (hnames : names ⊆ labelsOf parts) : Make site start exits code parts where
  code_eq := h.code_eq
  exits part hpart l hl := by
    rw [List.mem_append]
    rcases List.mem_append.mp (h.exits part hpart hl) with hl | hl
    · exact Or.inl hl
    · exact (List.mem_append.mp hl).imp_left fun hl => hnames hl
  grows := h.grows

theorem own (h : code.targets ⊆ code.labels ++ exits) :
    Make site start exits code [.own code] where
  code_eq := List.append_nil code
  exits := List.forall_mem_singleton.mpr <| by
    rwa [show labelsOf [.own code] = code.labels from List.append_nil _]
  grows s hs := by simp at hs

/-- A segment that leaves for labels that were given. -/
theorem nested {f : Fragment} {t : SymbolTable}
    (ht : Grows site.scope start t) (hexits : f.exits site ⊆ exits) :
    Make site start exits ((Segment.mk f t).code site) [.nested ⟨f, t⟩] where
  code_eq := List.append_nil _
  exits := List.forall_mem_singleton.mpr hexits
  grows s hs := by
    cases List.mem_singleton.mp hs
    exact ht

end Part.Make

/-! ## The emitter puts the parts together -/

/-- **Two emissions go in step** from a table on: they ask the tables that
come after it for the same, and their results have to do with each other. -/
def Emit.InStep {β γ : Type} (id : ScopeId) (start : SymbolTable)
    (R : β → γ → Prop) (x : Emit β) (y : Emit γ) : Prop :=
  ∀ t, Grows id start t → R (x.run t).1 (y.run t).1
    ∧ (y.run t).2 = (x.run t).2 ∧ Grows id start (x.run t).2

namespace Emit.InStep

variable {β β' γ γ' : Type} {id : ScopeId} {start : SymbolTable}
  {R : β → γ → Prop} {S : β' → γ' → Prop} {x : Emit β} {y : Emit γ}
  {k : β → Emit β'} {l : γ → Emit γ'}

theorem pure {b : β} {c : γ} (h : R b c) :
    InStep id start R (Pure.pure b) (Pure.pure c) :=
  fun _ ht => ⟨h, rfl, ht⟩

/-- **First these two, then those.** -/
theorem bind (h : InStep id start R x y)
    (hk : ∀ b c, R b c → InStep id start S (k b) (l c)) :
    InStep id start S (x >>= k) (y >>= l) := by
  intro t ht
  obtain ⟨hR, htable, ht₁⟩ := h t ht
  rw [Emit.run_bind, Emit.run_bind, htable]
  exact hk _ _ hR _ ht₁

theorem ask {k : β → Emit β'} {l : β → Emit γ'} {x : Emit β}
    (h : ∀ t, Grows id t (x.run t).2)
    (hk : ∀ b, InStep id start S (k b) (l b)) :
    InStep id start S (x >>= k) (x >>= l) :=
  bind (R := Eq) (fun t ht => ⟨rfl, rfl, ht.trans (h t)⟩)
    fun b _ hb => hb ▸ hk b

theorem temporary {site : Site} {ty : Ty} {k : Slot → Emit β'}
    {l : Slot → Emit γ'}
    (hk : ∀ temp, InStep site.scope start S (k temp) (l temp)) :
    InStep site.scope start S (site.temporary ty >>= k)
      (site.temporary ty >>= l) :=
  ask (fun _ => Grows.temporary rfl) hk

theorem label {site : Site} {hint : String} {k : Label → Emit β'}
    {l : Label → Emit γ'}
    (hhint : ∀ c, hint.toList.getLast? = some c → c.isDigit = false)
    (hk : ∀ name, InStep site.scope start S (k name) (l name)) :
    InStep site.scope start S (site.label hint >>= k)
      (site.label hint >>= l) :=
  ask (fun _ => Grows.label (.point hhint) rfl) hk

end Emit.InStep

section Emitter

variable {site : Site} {start : SymbolTable} {exits : List Label}

open Part.Make

theorem Emit.inStep_own {x : Emit Code}
    (h : ∀ t, Grows site.scope t (x.run t).2
      ∧ (x.run t).1.targets ⊆ (x.run t).1.labels ++ exits) :
    InStep site.scope start (Part.Make site start exits) x x.own :=
  fun t ht => ⟨.own (h t).2, rfl, ht.trans (h t).1⟩

theorem Fragment.takes_emit (f : Fragment) (t : SymbolTable) :
    Takes site.scope t ((f.emit site).run t).2
      ((f.emit site).run t).1.labels := by
  cases f with
  | expr e dest => exact (e.emits site dest t).takes
  | stmt s => exact (s.emits site t).takes
  | block stmts => exact (Stmt.emitsAll site stmts t).takes

/-- **A fragment inside is emitted first.** -/
theorem Emit.InStep.inside {β γ : Type} {S : β → γ → Prop}
    {k : Code → Emit β} {l : Part → Emit γ} {f : Fragment}
    (exits : List Label) (hexits : f.exits site ⊆ exits)
    (hk : ∀ code part, Part.Make site start exits code [part] →
      InStep site.scope start S (k code) (l part)) :
    InStep site.scope start S (f.emit site >>= k) (site.nested f >>= l) :=
  bind (R := fun code part => Part.Make site start exits code [part])
    (fun t ht => ⟨.nested ht hexits, rfl, ht.trans (f.takes_emit t).grows⟩) hk

/-- **Some parts are emitted first.** -/
theorem Emit.InStep.first {x : Emit Code} {y : Emit (List Part)}
    {k : Code → Emit Code} {l : List Part → Emit (List Part)}
    (h : InStep site.scope start (Part.Make site start exits) x y)
    (hk : ∀ code parts, Part.Make site start exits code parts →
      InStep site.scope start (Part.Make site start exits) (k code)
        (l parts)) :
    InStep site.scope start (Part.Make site start exits) (x >>= k)
      (y >>= l) :=
  h.bind hk

theorem Emit.inStep_nested {f : Fragment} (hexits : f.exits site ⊆ exits) :
    InStep site.scope start (Part.Make site start exits) (f.emit site)
      (do
        let part ← site.nested f
        return [part]) :=
  fun t ht => ⟨.nested ht hexits, rfl, ht.trans (f.takes_emit t).grows⟩

theorem Site.inStep_operandParts (ty : Ty) (operand : Expr Judged)
    {use : Slot → Code} (huse : ∀ temp, (use temp).targets ⊆ exits) :
    Emit.InStep site.scope start (Part.Make site start exits)
      (do
        let temp ← site.temporary ty
        let code ← operand.emit site (.store temp)
        return code ++ use temp)
      (site.operandParts ty operand use) :=
  .temporary fun temp =>
    .inside (f := .expr operand (.store temp)) exits (List.nil_subset _)
      fun _ _ hcode => .pure (hcode.append (.own (List.Subset.trans
        (huse temp) (List.subset_append_right _ _))))

/-- Two operands and an instruction that uses them. -/
theorem Site.inStep_binaryParts (lhs rhs : Expr Judged)
    {use : Slot → Slot → Instr}
    (huse : ∀ left right, (use left right).targets ⊆ exits) :
    Emit.InStep site.scope start (Part.Make site start exits)
      (do
        let left ← site.temporary lhs.ty
        let leftCode ← lhs.emit site (.store left)
        let right ← site.temporary rhs.ty
        let rightCode ← rhs.emit site (.store right)
        return leftCode ++ rightCode ++ [use left right])
      (site.binaryParts lhs rhs use) := by
  refine .temporary fun left => ?_
  refine .inside (f := .expr lhs (.store left)) exits (List.nil_subset _)
    fun _ _ hleft => ?_
  refine .temporary fun right => ?_
  refine .inside (f := .expr rhs (.store right)) exits (List.nil_subset _)
    fun _ _ hright => ?_
  refine .pure ((hleft.append hright).append (.own ?_))
  rw [Code.targets_cons, Code.targets_nil, List.append_nil]
  exact List.Subset.trans (huse left right) (List.subset_append_right _ _)

/-- Two conditions with a label between them. -/
theorem Site.inStep_linkedParts {hint : String}
    (hhint : ∀ c, hint.toList.getLast? = some c → c.isDigit = false)
    (lhs rhs : Expr Judged) {left : Label → Destination}
    {right : Destination}
    (hleft : ∀ next, (left next).exits ⊆ [next] ++ exits)
    (hright : right.exits ⊆ exits) :
    Emit.InStep site.scope start (Part.Make site start exits)
      (do
        let next ← site.label hint
        let leftCode ← lhs.emit site (left next)
        let rightCode ← rhs.emit site right
        return leftCode ++ [.label next] ++ rightCode)
      (site.linkedParts hint lhs rhs left right) := by
  refine .label hhint fun next => ?_
  refine .inside (f := .expr lhs (left next)) ([next] ++ exits) (hleft next)
    fun _ _ hlhs => ?_
  refine .inside (f := .expr rhs right) ([next] ++ exits)
    (List.Subset.trans hright (List.subset_append_right _ _))
    fun _ _ hrhs => .pure ?_
  refine close [next] ((hlhs.append (.own (List.nil_subset _))).append hrhs) ?_
  simp [Part.labelsOf, Part.ownLabels, Instr.label?]

/-- One of two instructions that go to no label. -/
theorem Site.inStep_selectParts (e : Expr Judged) {onTrue onFalse : Instr}
    (htrue : onTrue.targets = []) (hfalse : onFalse.targets = []) :
    Emit.InStep site.scope start (Part.Make site start exits)
      (site.select onTrue onFalse fun ifTrue ifFalse =>
        e.emit site (.branch ifTrue ifFalse))
      (site.selectParts e onTrue onFalse) := by
  refine .label (by simp) fun yes => .label (by simp) fun no =>
    .label (by simp) fun join => ?_
  refine .inside (f := .expr e (.branch yes no)) ([yes, no] ++ exits)
    (List.subset_append_left _ _) fun _ _ hcond => .pure ?_
  refine close [yes, no] (hcond.append (.own ?_)) ?_
  · simp only [Code.targets_cons, Code.targets_nil, htrue, hfalse]
    simp [Instr.targets, Instr.label?]
  · simp [Part.labelsOf, Part.ownLabels, Instr.label?]

/-- An expression whose code stores the value. -/
theorem Site.inStep_storingParts (e : Expr Judged)
    {value : Slot → Emit Code} {parts : Slot → Emit (List Part)}
    (hvalue : ∀ dst, e.emit site (.store dst) = value dst)
    (h : ∀ dst, Emit.InStep site.scope start
      (Part.Make site start []) (value dst) (parts dst))
    (dest : Destination) :
    Emit.InStep site.scope start (Part.Make site start dest.exits)
      (site.byStoring e.ty value dest) (site.storingParts e parts dest) := by
  cases dest with
  | store dst => exact h dst
  | branch ifTrue ifFalse =>
    rw [← funext hvalue]
    refine inStep_operandParts e.ty e fun temp => ?_
    simp [Instr.targets, Destination.exits]

/-- An expression whose code branches on the value. -/
theorem Site.inStep_branchingParts (e : Expr Judged)
    {condition : Label → Label → Emit Code}
    {parts : Label → Label → Emit (List Part)}
    (hcondition : ∀ ifTrue ifFalse,
      e.emit site (.branch ifTrue ifFalse) = condition ifTrue ifFalse)
    (h : ∀ ifTrue ifFalse, Emit.InStep site.scope start
      (Part.Make site start [ifTrue, ifFalse]) (condition ifTrue ifFalse)
      (parts ifTrue ifFalse)) (dest : Destination) :
    Emit.InStep site.scope start (Part.Make site start dest.exits)
      (site.byBranching condition dest)
      (site.branchingParts e parts dest) := by
  cases dest with
  | branch ifTrue ifFalse => exact h ifTrue ifFalse
  | store dst =>
    rw [← funext fun ifTrue => funext (hcondition ifTrue)]
    refine .temporary fun flag => ?_
    exact (inStep_selectParts e rfl rfl).bind fun _ _ hchoice =>
      .pure (hchoice.append (.own (List.nil_subset _)))

end Emitter

namespace Expr

variable {site : Site} {start : SymbolTable} {exits : List Label}

open Part.Make

/-- The code that computes arguments is made of parts. -/
theorem inStep_argParts (exits : List Label) (args : List (Expr Judged)) :
    Emit.InStep site.scope start
      (fun x y => Part.Make site start exits x.1 y.1 ∧ x.2 = y.2)
      (emitArgs site args) (argParts site args) := by
  induction args with
  | nil => exact .pure ⟨nil, rfl⟩
  | cons arg args ih =>
    refine .temporary fun temp => ?_
    refine .inside (f := .expr arg (.store temp)) exits (List.nil_subset _)
      fun _ _ hcode => ?_
    refine ih.bind fun _ _ hrest => .pure ?_
    exact ⟨hcode.append hrest.1, congrArg _ hrest.2⟩

/-- The code of a call is made of parts. -/
theorem inStep_callParts (callee : Ident) (args : List (Expr Judged))
    {rest : Code} (hrest : rest.targets = []) :
    Emit.InStep site.scope start (Part.Make site start exits)
      (do
        let (code, temps) ← emitArgs site args
        return code ++ setArguments 0 temps ++ .call callee :: rest)
      (callParts site callee args rest) := by
  refine (inStep_argParts exits args).bind fun x y hargs => .pure ?_
  obtain ⟨hcode, htemps⟩ := hargs
  rw [htemps]
  have hset : (setArguments 0 y.2).targets
      ⊆ (setArguments 0 y.2).labels ++ exits := fun l hl =>
    List.mem_append.mpr ((inner_setArguments exits 0 y.2).targets l hl)
  have hcall : Code.targets (.call callee :: rest) = [] := by
    rw [Code.targets_cons, hrest]
    rfl
  have hparts := (hcode.append (own hset)).append
    (own (hcall ▸ List.nil_subset _))
  simpa only [List.append_assoc, List.singleton_append] using hparts

/-- **The code for an expression is made of its parts.** -/
theorem inStep_parts (e : Expr Judged) (dest : Destination) :
    Emit.InStep site.scope start (Part.Make site start dest.exits)
      (e.emit site dest) (e.emitParts site dest) := by
  match e with
  | .lit note (.bool b) =>
    refine Emit.inStep_own fun t => ⟨?_, ?_⟩
    · cases dest <;> exact .refl t
    · cases dest with
      | store dst => exact List.nil_subset _
      | branch ifTrue ifFalse =>
        show Code.targets [.jump (if b then ifTrue else ifFalse)] ⊆ _
        cases b <;> simp [Instr.targets, Destination.exits]
  | .var note name =>
    refine Emit.inStep_own fun t => ⟨?_, ?_⟩
    · cases dest <;> exact .refl t
    · cases dest with
      | store dst => exact List.nil_subset _
      | branch ifTrue ifFalse =>
        show Code.targets [.branchZero .nonZero name ifTrue ifFalse] ⊆ _
        simp [Instr.targets, Destination.exits]
  | .lit note (.int n) =>
    exact Site.inStep_storingParts (.lit note (.int n)) (fun _ => rfl)
      (fun dst => .pure (own (List.nil_subset _))) dest
  | .lit note (.str s) =>
    exact Site.inStep_storingParts (.lit note (.str s)) (fun _ => rfl)
      (fun dst => .ask (fun _ => Grows.intern rfl)
        fun text => .pure (own (List.nil_subset _))) dest
  | .lit note .unit =>
    exact Site.inStep_storingParts (.lit note .unit) (fun _ => rfl)
      (fun dst => .pure (own (List.nil_subset _))) dest
  | .binary note (.arith op) lhs rhs =>
    exact Site.inStep_storingParts (.binary note (.arith op) lhs rhs)
      (fun _ => rfl) (fun dst =>
        Site.inStep_binaryParts lhs rhs fun _ _ => List.nil_subset _) dest
  | .binary note (.compare op) lhs rhs =>
    exact Site.inStep_branchingParts (.binary note (.compare op) lhs rhs)
      (fun _ _ => rfl) (fun ifTrue ifFalse =>
        Site.inStep_binaryParts lhs rhs fun _ _ => List.Subset.refl _) dest
  | .binary note (.logic .and) lhs rhs =>
    refine Site.inStep_branchingParts (.binary note (.logic .and) lhs rhs)
      (fun _ _ => rfl) (fun ifTrue ifFalse => ?_) dest
    refine Site.inStep_linkedParts (by simp) lhs rhs (fun next => ?_)
      (List.Subset.refl _)
    simp [Destination.exits]
  | .binary note (.logic .or) lhs rhs =>
    refine Site.inStep_branchingParts (.binary note (.logic .or) lhs rhs)
      (fun _ _ => rfl) (fun ifTrue ifFalse => ?_) dest
    refine Site.inStep_linkedParts (by simp) lhs rhs (fun next => ?_)
      (List.Subset.refl _)
    simp [Destination.exits]
  | .not note operand =>
    refine Site.inStep_branchingParts (.not note operand) (fun _ _ => rfl)
      (fun ifTrue ifFalse => ?_) dest
    refine Emit.inStep_nested (f := .expr operand (.branch ifFalse ifTrue)) ?_
    simp [Fragment.exits, Destination.exits]
  | .input note prompt =>
    exact Site.inStep_storingParts (.input note prompt) (fun _ => rfl)
      (fun dst => Site.inStep_operandParts .str prompt
        fun temp => List.nil_subset _) dest
  | .convert note target operand =>
    refine Site.inStep_storingParts (.convert note target operand)
      (fun _ => rfl) (fun dst => ?_) dest
    rw [Expr.emit, Site.byStoring]
    have hsame : Emit.InStep site.scope start (Part.Make site start []) _ _ :=
      Emit.inStep_nested (f := .expr operand (.store dst)) (List.nil_subset [])
    cases target with
    | toInt => cases operand.ty with
      | str => exact Site.inStep_operandParts _ operand fun temp =>
          List.nil_subset _
      | int | bool | unit => exact hsame
    | toStr => cases operand.ty with
      | int => exact Site.inStep_operandParts _ operand fun temp =>
          List.nil_subset _
      | bool => exact Site.inStep_selectParts operand rfl rfl
      | str | unit => exact hsame
  | .call note callee args =>
    exact Site.inStep_storingParts (.call note callee args) (fun _ => rfl)
      (fun dst => inStep_callParts callee args rfl) dest

end Expr

namespace Site

variable {site : Site} {start : SymbolTable} {exits : List Label}

open Part.Make

theorem inStep_printConstant (text : Label) :
    Emit.InStep site.scope start (Part.Make site start exits)
      (site.printConstant text) (Emit.own (site.printConstant text)) :=
  Emit.inStep_own fun _ => ⟨Grows.temporary rfl, List.nil_subset _⟩

/-- The code that writes a value is made of parts. -/
theorem inStep_printParts (arg : Expr Judged) :
    Emit.InStep site.scope start (Part.Make site start exits)
      (site.printArg arg) (site.printParts arg) := by
  rw [printArg, printParts]
  cases arg.ty with
  | int | str => exact inStep_operandParts _ arg fun _ => List.nil_subset _
  | bool =>
    refine .temporary fun temp => ?_
    exact (inStep_selectParts arg rfl rfl).first fun _ _ hchoice =>
      .pure (hchoice.append (own (List.nil_subset _)))
  | unit =>
    refine .temporary fun unused => ?_
    refine .inside (f := .expr arg (.store unused)) exits (List.nil_subset _)
      fun _ _ hcode => ?_
    exact (inStep_printConstant _).first fun _ _ hprint =>
      .pure (hcode.append hprint)

/-- The code that writes values, each after a blank, is made of parts. -/
theorem inStep_moreParts (args : List (Expr Judged)) :
    Emit.InStep site.scope start (Part.Make site start exits)
      (site.printMore args) (site.moreParts args) := by
  induction args with
  | nil => exact .pure nil
  | cons arg args ih =>
    refine (inStep_printConstant _).first fun _ _ hspace => ?_
    refine (inStep_printParts arg).first fun _ _ hcode => ?_
    exact ih.bind fun _ _ hrest =>
      .pure ((hspace.append hcode).append hrest)

/-- The code that writes values on one line is made of parts. -/
theorem inStep_lineParts (args : List (Expr Judged)) :
    Emit.InStep site.scope start (Part.Make site start exits)
      (site.printArgs args) (site.lineParts args) := by
  cases args with
  | nil => exact .pure nil
  | cons arg args =>
    refine (inStep_printParts arg).first fun _ _ hcode => ?_
    exact (inStep_moreParts args).first fun _ _ hrest =>
      .pure (hcode.append hrest)

end Site

namespace Stmt

variable {site : Site} {start : SymbolTable}

open Part.Make

/-- **The code for a statement is made of its parts.** -/
theorem inStep_parts (s : Stmt Judged) :
    Emit.InStep site.scope start (Part.Make site start [site.exit])
      (s.emit site) (s.emitParts site) := by
  match s with
  | .introduce span name ty value | .assign span name value =>
    exact Emit.inStep_nested (f := .expr value (.store name))
      (List.nil_subset _)
  | .update span op name operand =>
    refine .temporary fun current => .temporary fun temp => ?_
    exact .inside (f := .expr operand (.store temp)) [site.exit]
      (List.nil_subset _) fun _ _ hcode => .pure
        (((own (List.nil_subset _)).append hcode).append
          (own (List.nil_subset _)))
  | .pass span => exact .pure (own (List.nil_subset _))
  | .print span args =>
    refine (Site.inStep_lineParts args).first fun _ _ hcode => ?_
    exact (Site.inStep_printConstant _).first fun _ _ hnewline =>
      .pure (hcode.append hnewline)
  | .ret span value =>
    exact Site.inStep_operandParts value.ty value
      fun temp => List.Subset.refl _
  | .retUnit span =>
    refine .temporary fun temp => .pure (own ?_)
    exact List.subset_append_right _ [site.exit]
  | .call span callee args => exact Expr.inStep_callParts callee args rfl
  | .ifElse span cond thenBlock elseBlock =>
    refine .label (by simp) fun thenLabel => .label (by simp) fun elseLabel =>
      .label (by simp) fun done => ?_
    let names := [thenLabel, elseLabel, done]
    refine .inside (f := .expr cond (.branch thenLabel elseLabel))
      (names ++ [site.exit]) ?_ fun _ _ hcond => ?_
    · simp [names, Fragment.exits, Destination.exits]
    refine .inside (f := .block thenBlock.stmts) (names ++ [site.exit])
      (List.subset_append_right _ _) fun _ _ hthen => ?_
    refine .inside (f := .block elseBlock.stmts) (names ++ [site.exit])
      (List.subset_append_right _ _) fun _ _ helse => .pure ?_
    refine close names ((((((hcond.append (own ?_)).append hthen).append
      (own ?_)).append helse).append (own ?_))) ?_
    all_goals simp [names, Instr.targets, Instr.label?, Part.labelsOf,
      Part.ownLabels]
  | .whileLoop span cond body =>
    refine .label (by simp) fun again => .label (by simp) fun first =>
      .label (by simp) fun done => ?_
    let names := [again, first, done]
    refine .inside (f := .expr cond (.branch first done))
      (names ++ [site.exit]) ?_ fun _ _ hcond => ?_
    · simp [names, Fragment.exits, Destination.exits]
    refine .inside (f := .block body.stmts) (names ++ [site.exit])
      (List.subset_append_right _ _) fun _ _ hbody => .pure ?_
    refine close names (((((own ?_).append hcond).append (own ?_)).append
      hbody).append (own ?_)) ?_
    all_goals simp [names, Instr.targets, Instr.label?, Part.labelsOf,
      Part.ownLabels]

/-- The code for statements one after the other is made of parts. -/
theorem inStep_blockParts (stmts : List (Stmt Judged)) :
    Emit.InStep site.scope start (Part.Make site start [site.exit])
      (emitAll site stmts) (blockParts site stmts) := by
  induction stmts with
  | nil => exact .pure nil
  | cons stmt stmts ih =>
    exact .inside (f := .stmt stmt) [site.exit] (List.Subset.refl _)
      fun _ _ hcode => ih.first fun _ _ hrest => .pure (hcode.append hrest)

end Stmt

namespace Fragment

variable {site : Site} {start : SymbolTable}

/-- **The code for a fragment is made of its parts.** -/
theorem inStep_parts (f : Fragment) :
    Emit.InStep site.scope start (Part.Make site start (f.exits site))
      (f.emit site) (f.parts site) :=
  match f with
  | expr e dest => e.inStep_parts dest
  | stmt s => s.inStep_parts
  | block stmts => Stmt.inStep_blockParts stmts

/-- **To emit a fragment is to emit its parts and put them together.** -/
theorem emit_eq (f : Fragment) :
    f.emit site = do
      let parts ← f.parts site
      return Part.codeOf site parts := by
  funext t
  obtain ⟨hmake, htable, -⟩ := f.inStep_parts t (.refl t)
  exact Prod.ext hmake.code_eq.symm htable.symm

end Fragment

/-- **A segment is made of its parts.** -/
theorem Segment.make (site : Site) (s : Segment) :
    Part.Make site s.start (s.fragment.exits site) (s.code site)
      (s.parts site) :=
  (s.fragment.inStep_parts s.start (.refl _)).1

end Primer
