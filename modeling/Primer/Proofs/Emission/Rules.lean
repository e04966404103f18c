import Primer.Emission.Stmt

/-!
# Emission as rules

`Expr.emit` and `Stmt.emit` are programs over a symbol table. This module
says the same by rules: `e.Emits site dest t code t'` holds if, from the
table `t`, the code for `e` with the destination `dest` is `code` and the
table after it is `t'`. There is one rule for every way in which code comes
about, with a premise for every part that is emitted and every name that is
taken from the table, in the order in which that happens.

An expression of which only the storing code is given is branched on by
`branchStored`, and one of which only the branching code is given is stored by
`storeBranched`, so a property of the code is proved for each construct in its
own mode and once for each of the two bridges. `Expr.emits` and `Stmt.emits`
say that the emitter keeps to the rules. Whatever holds of all code is proved
by induction on the rules and never by opening the emitter again.
-/

namespace Primer

/-- Whether the code of an expression stores its value, so that it is branched
on by way of a temporary. -/
def Expr.isStored {α : Type} : Expr α → Bool
  | .lit _ (.int _) | .lit _ (.str _) | .lit _ .unit => true
  | .lit _ (.bool _) | .var _ _ | .not _ _ => false
  | .binary _ (.arith _) _ _ => true
  | .binary _ (.compare _) _ _ | .binary _ (.logic _) _ _ => false
  | .input _ _ | .convert _ _ _ | .call _ _ _ => true

/-- Whether the code of an expression branches on its value, so that it is
stored by way of a flag. -/
def Expr.isBranched {α : Type} : Expr α → Bool
  | .binary _ (.compare _) _ _ | .binary _ (.logic _) _ _ | .not _ _ => true
  | .binary _ (.arith _) _ _ | .lit _ _ | .var _ _ | .input _ _
  | .convert _ _ _ | .call _ _ _ => false

/-- Whether the value of an operand is in the machine what the conversion of
it is, so that nothing is done to convert it. -/
def Conversion.keeps : Conversion → Ty → Bool
  | .toInt, .str => false
  | .toInt, .int | .toInt, .bool | .toInt, .unit => true
  | .toStr, .int | .toStr, .bool => false
  | .toStr, .str | .toStr, .unit => true

namespace Expr

mutual

/-- **The rules for the code of an expression.** -/
inductive Emits (site : Site) : Expr Judged → Destination → SymbolTable →
    Code → SymbolTable → Prop
  /-- An integer. -/
  | int {note : Judged} {n : Int64} {dst : Slot} {t : SymbolTable} :
    Emits site (.lit note (.int n)) (.store dst) t [.set dst n] t
  /-- A text. -/
  | str {note : Judged} {s : String} {dst : Slot} {text : Label}
      {t t' : SymbolTable} (htext : t.intern s = (text, t')) :
    Emits site (.lit note (.str s)) (.store dst) t [.loadString dst text] t'
  /-- The none value. -/
  | unit {note : Judged} {dst : Slot} {t : SymbolTable} :
    Emits site (.lit note .unit) (.store dst) t [.set dst 0] t
  /-- A truth value stored. -/
  | boolStore {note : Judged} {b : Bool} {dst : Slot} {t : SymbolTable} :
    Emits site (.lit note (.bool b)) (.store dst) t
      [.set dst (if b then 1 else 0)] t
  /-- A truth value branched on. -/
  | boolBranch {note : Judged} {b : Bool} {ifTrue ifFalse : Label}
      {t : SymbolTable} :
    Emits site (.lit note (.bool b)) (.branch ifTrue ifFalse) t
      [.jump (if b then ifTrue else ifFalse)] t
  /-- A variable copied. -/
  | varStore {note : Judged} {name : Ident} {dst : Slot} {t : SymbolTable} :
    Emits site (.var note name) (.store dst) t [.move dst name] t
  /-- A variable branched on. -/
  | varBranch {note : Judged} {name : Ident} {ifTrue ifFalse : Label}
      {t : SymbolTable} :
    Emits site (.var note name) (.branch ifTrue ifFalse) t
      [.branchZero .nonZero name ifTrue ifFalse] t
  /-- Arithmetic: both operands, then the operation. -/
  | arith {note : Judged} {op : ArithOp} {lhs rhs : Expr Judged}
      {dst left right : Slot} {t t₁ t₂ t₃ t₄ : SymbolTable}
      {leftCode rightCode : Code}
      (hleft : t.freshTemporary site.scope lhs.ty = (left, t₁))
      (hlhs : Emits site lhs (.store left) t₁ leftCode t₂)
      (hright : t₂.freshTemporary site.scope rhs.ty = (right, t₃))
      (hrhs : Emits site rhs (.store right) t₃ rightCode t₄) :
    Emits site (.binary note (.arith op) lhs rhs) (.store dst) t
      (leftCode ++ rightCode ++ [.arith op dst left right]) t₄
  /-- A comparison: both operands, then the branch. -/
  | compare {note : Judged} {op : Comparison} {lhs rhs : Expr Judged}
      {ifTrue ifFalse : Label} {left right : Slot}
      {t t₁ t₂ t₃ t₄ : SymbolTable} {leftCode rightCode : Code}
      (hleft : t.freshTemporary site.scope lhs.ty = (left, t₁))
      (hlhs : Emits site lhs (.store left) t₁ leftCode t₂)
      (hright : t₂.freshTemporary site.scope rhs.ty = (right, t₃))
      (hrhs : Emits site rhs (.store right) t₃ rightCode t₄) :
    Emits site (.binary note (.compare op) lhs rhs) (.branch ifTrue ifFalse) t
      (leftCode ++ rightCode
        ++ [.branchCompare op left right ifTrue ifFalse]) t₄
  /-- Both hold: the first operand may decide that they do not. -/
  | and {note : Judged} {lhs rhs : Expr Judged} {ifTrue ifFalse next : Label}
      {t t₁ t₂ t₃ : SymbolTable} {leftCode rightCode : Code}
      (hnext : t.freshLabel site.scope (some "and") = (next, t₁))
      (hlhs : Emits site lhs (.branch next ifFalse) t₁ leftCode t₂)
      (hrhs : Emits site rhs (.branch ifTrue ifFalse) t₂ rightCode t₃) :
    Emits site (.binary note (.logic .and) lhs rhs) (.branch ifTrue ifFalse) t
      (leftCode ++ [.label next] ++ rightCode) t₃
  /-- One holds: the first operand may decide that one does. -/
  | or {note : Judged} {lhs rhs : Expr Judged} {ifTrue ifFalse next : Label}
      {t t₁ t₂ t₃ : SymbolTable} {leftCode rightCode : Code}
      (hnext : t.freshLabel site.scope (some "or") = (next, t₁))
      (hlhs : Emits site lhs (.branch ifTrue next) t₁ leftCode t₂)
      (hrhs : Emits site rhs (.branch ifTrue ifFalse) t₂ rightCode t₃) :
    Emits site (.binary note (.logic .or) lhs rhs) (.branch ifTrue ifFalse) t
      (leftCode ++ [.label next] ++ rightCode) t₃
  /-- A negation: the labels change places. -/
  | not {note : Judged} {operand : Expr Judged} {ifTrue ifFalse : Label}
      {t t' : SymbolTable} {code : Code}
      (hoperand : Emits site operand (.branch ifFalse ifTrue) t code t') :
    Emits site (.not note operand) (.branch ifTrue ifFalse) t code t'
  /-- An input: the prompt, written, then the integer. -/
  | input {note : Judged} {prompt : Expr Judged} {dst temp : Slot}
      {t t₁ t₂ : SymbolTable} {code : Code}
      (htemp : t.freshTemporary site.scope .str = (temp, t₁))
      (hprompt : Emits site prompt (.store temp) t₁ code t₂) :
    Emits site (.input note prompt) (.store dst) t
      (code ++ [.printString temp, .readInt dst]) t₂
  /-- A text read as an integer. -/
  | strToInt {note : Judged} {operand : Expr Judged} {dst temp : Slot}
      {t t₁ t₂ : SymbolTable} {code : Code} (hty : operand.ty = .str)
      (htemp : t.freshTemporary site.scope .str = (temp, t₁))
      (hoperand : Emits site operand (.store temp) t₁ code t₂) :
    Emits site (.convert note .toInt operand) (.store dst) t
      (code ++ [.strToInt dst temp]) t₂
  /-- An integer written as a text. -/
  | intToStr {note : Judged} {operand : Expr Judged} {dst temp : Slot}
      {t t₁ t₂ : SymbolTable} {code : Code} (hty : operand.ty = .int)
      (htemp : t.freshTemporary site.scope .int = (temp, t₁))
      (hoperand : Emits site operand (.store temp) t₁ code t₂) :
    Emits site (.convert note .toStr operand) (.store dst) t
      (code ++ [.intToStr dst temp]) t₂
  /-- A truth value written as a text: one of two texts. -/
  | boolToStr {note : Judged} {operand : Expr Judged} {dst : Slot}
      {t t' : SymbolTable} {code : Code} (hty : operand.ty = .bool)
      (hchoice : EmitsChoice site operand
        (.loadString dst site.constants.yes)
        (.loadString dst site.constants.no) t code t') :
    Emits site (.convert note .toStr operand) (.store dst) t code t'
  /-- A conversion with nothing to do. -/
  | keep {note : Judged} {target : Conversion} {operand : Expr Judged}
      {dst : Slot} {t t' : SymbolTable} {code : Code}
      (hkeeps : target.keeps operand.ty = true)
      (hoperand : Emits site operand (.store dst) t code t') :
    Emits site (.convert note target operand) (.store dst) t code t'
  /-- A call: the arguments, set aside once all are computed, then the call
  and its result. -/
  | call {note : Judged} {callee : Ident} {args : List (Expr Judged)}
      {dst : Slot} {temps : List Slot} {t t' : SymbolTable} {code : Code}
      (hargs : EmitsArgs site args temps t code t') :
    Emits site (.call note callee args) (.store dst) t
      (code ++ setArguments 0 temps ++ [.call callee, .fetchResult dst]) t'
  /-- A stored value branched on. -/
  | branchStored {e : Expr Judged} {ifTrue ifFalse : Label} {temp : Slot}
      {t t₁ t₂ : SymbolTable} {code : Code} (hstored : e.isStored = true)
      (htemp : t.freshTemporary site.scope e.ty = (temp, t₁))
      (hvalue : Emits site e (.store temp) t₁ code t₂) :
    Emits site e (.branch ifTrue ifFalse) t
      (code ++ [.branchZero .zero temp ifFalse ifTrue]) t₂
  /-- A branch stored. -/
  | storeBranched {e : Expr Judged} {dst flag : Slot} {t t₁ t₂ : SymbolTable}
      {code : Code} (hbranched : e.isBranched = true)
      (hflag : t.freshTemporary site.scope .bool = (flag, t₁))
      (hchoice : EmitsChoice site e (.set flag 1) (.set flag 0) t₁ code t₂) :
    Emits site e (.store dst) t (code ++ [.move dst flag]) t₂

/-- **The rule for a choice between two instructions** by the value of an
expression. -/
inductive EmitsChoice (site : Site) : Expr Judged → Instr → Instr →
    SymbolTable → Code → SymbolTable → Prop
  /-- A branch to one of the two, which meet again afterwards. -/
  | mk {e : Expr Judged} {onTrue onFalse : Instr} {yes no join : Label}
      {t t₁ t₂ t₃ t₄ : SymbolTable} {code : Code}
      (hyes : t.freshLabel site.scope (some "true") = (yes, t₁))
      (hno : t₁.freshLabel site.scope (some "false") = (no, t₂))
      (hjoin : t₂.freshLabel site.scope (some "join") = (join, t₃))
      (he : Emits site e (.branch yes no) t₃ code t₄) :
    EmitsChoice site e onTrue onFalse t
      (code ++ [.label yes, onTrue, .jump join, .label no, onFalse,
        .label join]) t₄

/-- **The rules for the code that computes arguments** into temporaries. -/
inductive EmitsArgs (site : Site) : List (Expr Judged) → List Slot →
    SymbolTable → Code → SymbolTable → Prop
  /-- No argument. -/
  | nil {t : SymbolTable} : EmitsArgs site [] [] t [] t
  /-- One argument, then the others. -/
  | cons {arg : Expr Judged} {args : List (Expr Judged)} {temp : Slot}
      {temps : List Slot} {t t₁ t₂ t₃ : SymbolTable} {code rest : Code}
      (htemp : t.freshTemporary site.scope arg.ty = (temp, t₁))
      (harg : Emits site arg (.store temp) t₁ code t₂)
      (hargs : EmitsArgs site args temps t₂ rest t₃) :
    EmitsArgs site (arg :: args) (temp :: temps) t (code ++ rest) t₃

end

/-! ## The emitter keeps to the rules -/

variable {site : Site}

theorem emits_byStoring {e : Expr Judged} (hstored : e.isStored = true)
    {value : Slot → Emit Code}
    (hvalue : ∀ dst t, Emits site e (.store dst) t
      ((value dst).run t).1 ((value dst).run t).2)
    (dest : Destination) (t : SymbolTable) :
    Emits site e dest t ((site.byStoring e.ty value dest).run t).1
      ((site.byStoring e.ty value dest).run t).2 := by
  cases dest with
  | store dst => exact hvalue dst t
  | branch ifTrue ifFalse => exact .branchStored hstored rfl (hvalue _ _)

theorem emitsChoice_select {e : Expr Judged} (onTrue onFalse : Instr)
    {condition : Label → Label → Emit Code}
    (hcondition : ∀ yes no t, Emits site e (.branch yes no) t
      ((condition yes no).run t).1 ((condition yes no).run t).2)
    (t : SymbolTable) :
    EmitsChoice site e onTrue onFalse t
      ((site.select onTrue onFalse condition).run t).1
      ((site.select onTrue onFalse condition).run t).2 :=
  .mk rfl rfl rfl (hcondition _ _ _)

/-- Branching code keeps to the rules with any destination. -/
theorem emits_byBranching {e : Expr Judged} (hbranched : e.isBranched = true)
    {condition : Label → Label → Emit Code}
    (hcondition : ∀ yes no t, Emits site e (.branch yes no) t
      ((condition yes no).run t).1 ((condition yes no).run t).2)
    (dest : Destination) (t : SymbolTable) :
    Emits site e dest t ((site.byBranching condition dest).run t).1
      ((site.byBranching condition dest).run t).2 := by
  cases dest with
  | store dst =>
    exact .storeBranched hbranched rfl
      (emitsChoice_select _ _ hcondition _)
  | branch ifTrue ifFalse => exact hcondition ifTrue ifFalse t

mutual

/-- **The emitter keeps to the rules**, for an expression. -/
theorem emits (site : Site) (e : Expr Judged) (dest : Destination)
    (t : SymbolTable) :
    Emits site e dest t ((e.emit site dest).run t).1
      ((e.emit site dest).run t).2 := by
  match e with
  | .lit note (.int n) => exact emits_byStoring rfl (fun _ _ => .int) dest t
  | .lit note (.str s) =>
    exact emits_byStoring rfl (fun _ _ => .str rfl) dest t
  | .lit note (.bool b) => cases dest with
    | store dst => exact .boolStore
    | branch ifTrue ifFalse => exact .boolBranch
  | .lit note .unit => exact emits_byStoring rfl (fun _ _ => .unit) dest t
  | .var note name => cases dest with
    | store dst => exact .varStore
    | branch ifTrue ifFalse => exact .varBranch
  | .binary note (.arith op) lhs rhs =>
    exact emits_byStoring rfl (fun _ _ =>
      .arith rfl (emits site lhs _ _) rfl (emits site rhs _ _)) dest t
  | .binary note (.compare op) lhs rhs =>
    exact emits_byBranching rfl (fun _ _ _ =>
      .compare rfl (emits site lhs _ _) rfl (emits site rhs _ _)) dest t
  | .binary note (.logic .and) lhs rhs =>
    exact emits_byBranching rfl (fun _ _ _ =>
      .and rfl (emits site lhs _ _) (emits site rhs _ _)) dest t
  | .binary note (.logic .or) lhs rhs =>
    exact emits_byBranching rfl (fun _ _ _ =>
      .or rfl (emits site lhs _ _) (emits site rhs _ _)) dest t
  | .not note operand =>
    exact emits_byBranching rfl (fun _ _ _ =>
      .not (emits site operand _ _)) dest t
  | .input note prompt =>
    exact emits_byStoring rfl (fun _ _ =>
      .input rfl (emits site prompt _ _)) dest t
  | .convert note target operand =>
    have hoperand := emits site operand
    refine emits_byStoring rfl (fun dst t => ?_) dest t
    have hkeep (h : target.keeps operand.ty = true) :
        Emits site (.convert note target operand) (.store dst) t _ _ :=
      .keep h (hoperand (.store dst) t)
    cases target with
    | toInt => cases hty : operand.ty with
      | str => exact .strToInt hty rfl (hoperand _ _)
      | int | bool | unit => exact hkeep (by rw [hty]; rfl)
    | toStr => cases hty : operand.ty with
      | int => exact .intToStr hty rfl (hoperand _ _)
      | bool =>
        exact .boolToStr hty
          (emitsChoice_select _ _ (fun _ _ => hoperand _) t)
      | str | unit => exact hkeep (by rw [hty]; rfl)
  | .call note callee args =>
    exact emits_byStoring rfl (fun _ _ =>
      .call (emitsArgs site args _)) dest t

/-- **The emitter keeps to the rules**, for arguments. -/
theorem emitsArgs (site : Site) (args : List (Expr Judged))
    (t : SymbolTable) :
    EmitsArgs site args ((emitArgs site args).run t).1.2 t
      ((emitArgs site args).run t).1.1 ((emitArgs site args).run t).2 := by
  match args with
  | [] => exact .nil
  | arg :: args =>
    exact .cons rfl (emits site arg _ _) (emitsArgs site args _)

end

end Expr

/-! ## Statements -/

/-- **The rule for code that writes a text.** -/
inductive Site.EmitsText (site : Site) :
    Label → SymbolTable → Code → SymbolTable → Prop
  /-- The text, loaded and written. -/
  | mk {text : Label} {temp : Slot} {t t' : SymbolTable}
      (htemp : t.freshTemporary site.scope .str = (temp, t')) :
    EmitsText site text t [.loadString temp text, .printString temp] t'

/-- **The rules for code that writes a value**, by its type. -/
inductive Expr.EmitsPrint (site : Site) :
    Expr Judged → SymbolTable → Code → SymbolTable → Prop
  /-- An integer. -/
  | int {arg : Expr Judged} {temp : Slot} {t t₁ t₂ : SymbolTable}
      {code : Code} (hty : arg.ty = .int)
      (htemp : t.freshTemporary site.scope .int = (temp, t₁))
      (harg : arg.Emits site (.store temp) t₁ code t₂) :
    EmitsPrint site arg t (code ++ [.printInt temp]) t₂
  /-- A text. -/
  | str {arg : Expr Judged} {temp : Slot} {t t₁ t₂ : SymbolTable}
      {code : Code} (hty : arg.ty = .str)
      (htemp : t.freshTemporary site.scope .str = (temp, t₁))
      (harg : arg.Emits site (.store temp) t₁ code t₂) :
    EmitsPrint site arg t (code ++ [.printString temp]) t₂
  /-- A truth value: one of two texts. -/
  | bool {arg : Expr Judged} {temp : Slot} {t t₁ t₂ : SymbolTable}
      {code : Code} (hty : arg.ty = .bool)
      (htemp : t.freshTemporary site.scope .str = (temp, t₁))
      (hchoice : arg.EmitsChoice site (.loadString temp site.constants.yes)
        (.loadString temp site.constants.no) t₁ code t₂) :
    EmitsPrint site arg t (code ++ [.printString temp]) t₂
  /-- The none value: evaluated, and written as a text. -/
  | unit {arg : Expr Judged} {unused : Slot} {t t₁ t₂ t₃ : SymbolTable}
      {code print : Code} (hty : arg.ty = .unit)
      (hunused : t.freshTemporary site.scope .unit = (unused, t₁))
      (harg : arg.Emits site (.store unused) t₁ code t₂)
      (hprint : site.EmitsText site.constants.unit t₂ print t₃) :
    EmitsPrint site arg t (code ++ print) t₃

/-- **The rules for code that writes values, each after a blank.** -/
inductive Site.EmitsMore (site : Site) :
    List (Expr Judged) → SymbolTable → Code → SymbolTable → Prop
  /-- No value. -/
  | nil {t : SymbolTable} : EmitsMore site [] t [] t
  /-- A blank and a value, then the others. -/
  | cons {arg : Expr Judged} {args : List (Expr Judged)}
      {t t₁ t₂ t₃ : SymbolTable} {space code rest : Code}
      (hspace : site.EmitsText site.constants.space t space t₁)
      (harg : arg.EmitsPrint site t₁ code t₂)
      (hargs : EmitsMore site args t₂ rest t₃) :
    EmitsMore site (arg :: args) t (space ++ code ++ rest) t₃

/-- **The rules for code that writes values** with a blank between two. -/
inductive Site.EmitsLine (site : Site) :
    List (Expr Judged) → SymbolTable → Code → SymbolTable → Prop
  /-- No value. -/
  | nil {t : SymbolTable} : EmitsLine site [] t [] t
  /-- A value, then the others. -/
  | cons {arg : Expr Judged} {args : List (Expr Judged)}
      {t t₁ t₂ : SymbolTable} {code rest : Code}
      (harg : arg.EmitsPrint site t code t₁)
      (hargs : site.EmitsMore args t₁ rest t₂) :
    EmitsLine site (arg :: args) t (code ++ rest) t₂

namespace Stmt

mutual

/-- **The rules for the code of a statement.** -/
inductive Emits (site : Site) :
    Stmt Judged → SymbolTable → Code → SymbolTable → Prop
  /-- A new variable. -/
  | introduce {span : Span} {name : Ident} {ty : Ty} {init : Expr Judged}
      {t t' : SymbolTable} {code : Code}
      (hinit : init.Emits site (.store name) t code t') :
    Emits site (.introduce span name ty init) t code t'
  /-- A new value. -/
  | assign {span : Span} {name : Ident} {value : Expr Judged}
      {t t' : SymbolTable} {code : Code}
      (hvalue : value.Emits site (.store name) t code t') :
    Emits site (.assign span name value) t code t'
  /-- An update: the old value, the operand, the operation. -/
  | update {span : Span} {op : Update} {name : Ident}
      {operand : Expr Judged} {current temp : Slot}
      {t t₁ t₂ t₃ : SymbolTable} {code : Code}
      (hcurrent : t.freshTemporary site.scope .int = (current, t₁))
      (htemp : t₁.freshTemporary site.scope operand.ty = (temp, t₂))
      (hoperand : operand.Emits site (.store temp) t₂ code t₃) :
    Emits site (.update span op name operand) t
      ([.move current name] ++ code ++ [.arith op.op name current temp]) t₃
  /-- Nothing. -/
  | pass {span : Span} {t : SymbolTable} : Emits site (.pass span) t [.nop] t
  /-- Values on one line. -/
  | print {span : Span} {args : List (Expr Judged)} {t t₁ t₂ : SymbolTable}
      {code newline : Code} (hargs : site.EmitsLine args t code t₁)
      (hnewline : site.EmitsText site.constants.newline t₁ newline t₂) :
    Emits site (.print span args) t (code ++ newline) t₂
  /-- A return with a value. -/
  | ret {span : Span} {value : Expr Judged} {temp : Slot}
      {t t₁ t₂ : SymbolTable} {code : Code}
      (htemp : t.freshTemporary site.scope value.ty = (temp, t₁))
      (hvalue : value.Emits site (.store temp) t₁ code t₂) :
    Emits site (.ret span value) t
      (code ++ [.setResult temp, .jump site.exit]) t₂
  /-- A return from a procedure. -/
  | retUnit {span : Span} {temp : Slot} {t t' : SymbolTable}
      (htemp : t.freshTemporary site.scope .unit = (temp, t')) :
    Emits site (.retUnit span) t
      [.set temp 0, .setResult temp, .jump site.exit] t'
  /-- The call of a procedure. -/
  | call {span : Span} {callee : Ident} {args : List (Expr Judged)}
      {temps : List Slot} {t t' : SymbolTable} {code : Code}
      (hargs : Expr.EmitsArgs site args temps t code t') :
    Emits site (.call span callee args) t
      (code ++ setArguments 0 temps ++ [.call callee]) t'
  /-- One of two blocks. -/
  | ifElse {span : Span} {cond : Expr Judged}
      {thenBlock elseBlock : Block (Stmt Judged)}
      {thenLabel elseLabel done : Label} {t t₁ t₂ t₃ t₄ t₅ t₆ : SymbolTable}
      {condCode thenCode elseCode : Code}
      (hthenLabel : t.freshLabel site.scope (some "then") = (thenLabel, t₁))
      (helseLabel : t₁.freshLabel site.scope (some "else") = (elseLabel, t₂))
      (hdone : t₂.freshLabel site.scope (some "endif") = (done, t₃))
      (hcond : cond.Emits site (.branch thenLabel elseLabel) t₃ condCode t₄)
      (hthen : EmitsAll site thenBlock.stmts t₄ thenCode t₅)
      (helse : EmitsAll site elseBlock.stmts t₅ elseCode t₆) :
    Emits site (.ifElse span cond thenBlock elseBlock) t
      (condCode ++ [.label thenLabel] ++ thenCode
        ++ [.jump done, .label elseLabel] ++ elseCode ++ [.label done]) t₆
  /-- A block, again and again. -/
  | whileLoop {span : Span} {cond : Expr Judged} {body : Block (Stmt Judged)}
      {again start done : Label} {t t₁ t₂ t₃ t₄ t₅ : SymbolTable}
      {condCode bodyCode : Code}
      (hagain : t.freshLabel site.scope (some "loop") = (again, t₁))
      (hstart : t₁.freshLabel site.scope (some "body") = (start, t₂))
      (hdone : t₂.freshLabel site.scope (some "endwhile") = (done, t₃))
      (hcond : cond.Emits site (.branch start done) t₃ condCode t₄)
      (hbody : EmitsAll site body.stmts t₄ bodyCode t₅) :
    Emits site (.whileLoop span cond body) t
      ([.label again] ++ condCode ++ [.label start] ++ bodyCode
        ++ [.jump again, .label done]) t₅

/-- **The rules for the code of statements**, one after the other. -/
inductive EmitsAll (site : Site) :
    List (Stmt Judged) → SymbolTable → Code → SymbolTable → Prop
  /-- No statement. -/
  | nil {t : SymbolTable} : EmitsAll site [] t [] t
  /-- One statement, then the others. -/
  | cons {stmt : Stmt Judged} {stmts : List (Stmt Judged)}
      {t t₁ t₂ : SymbolTable} {code rest : Code}
      (hstmt : Emits site stmt t code t₁)
      (hstmts : EmitsAll site stmts t₁ rest t₂) :
    EmitsAll site (stmt :: stmts) t (code ++ rest) t₂

end

end Stmt

namespace Site

variable (site : Site)

theorem emitsText_printConstant (text : Label) (t : SymbolTable) :
    site.EmitsText text t ((site.printConstant text).run t).1
      ((site.printConstant text).run t).2 := .mk rfl

/-- Writing a value keeps to the rules. -/
theorem emitsPrint_printArg (arg : Expr Judged) (t : SymbolTable) :
    arg.EmitsPrint site t ((site.printArg arg).run t).1
      ((site.printArg arg).run t).2 := by
  have harg := Expr.emits site arg
  unfold printArg
  cases hty : arg.ty with
  | int => exact .int hty rfl (harg _ _)
  | str => exact .str hty rfl (harg _ _)
  | bool =>
    exact .bool hty rfl (Expr.emitsChoice_select _ _ (fun _ _ => harg _) _)
  | unit =>
    exact .unit hty rfl (harg _ _) (site.emitsText_printConstant _ _)

/-- Writing more values keeps to the rules. -/
theorem emitsMore_printMore (args : List (Expr Judged)) (t : SymbolTable) :
    site.EmitsMore args t ((site.printMore args).run t).1
      ((site.printMore args).run t).2 := by
  induction args generalizing t with
  | nil => exact .nil
  | cons arg args ih =>
    exact .cons (site.emitsText_printConstant _ _)
      (site.emitsPrint_printArg arg _) (ih _)

/-- Writing values keeps to the rules. -/
theorem emitsLine_printArgs (args : List (Expr Judged)) (t : SymbolTable) :
    site.EmitsLine args t ((site.printArgs args).run t).1
      ((site.printArgs args).run t).2 := by
  cases args with
  | nil => exact .nil
  | cons arg args =>
    exact .cons (site.emitsPrint_printArg arg _)
      (site.emitsMore_printMore args _)

end Site

namespace Stmt

mutual

/-- **The emitter keeps to the rules**, for a statement. -/
theorem emits (site : Site) (stmt : Stmt Judged) (t : SymbolTable) :
    Emits site stmt t ((stmt.emit site).run t).1
      ((stmt.emit site).run t).2 := by
  match stmt with
  | .introduce span name ty init =>
    exact .introduce (Expr.emits site init _ t)
  | .assign span name value => exact .assign (Expr.emits site value _ t)
  | .update span op name operand =>
    exact .update rfl rfl (Expr.emits site operand _ _)
  | .pass span => exact .pass
  | .print span args =>
    exact .print (site.emitsLine_printArgs args t)
      (site.emitsText_printConstant _ _)
  | .ret span value => exact .ret rfl (Expr.emits site value _ _)
  | .retUnit span => exact .retUnit rfl
  | .call span callee args => exact .call (Expr.emitsArgs site args t)
  | .ifElse span cond ⟨thenStmts, _⟩ ⟨elseStmts, _⟩ =>
    exact .ifElse rfl rfl rfl (Expr.emits site cond _ _)
      (emitsAll site thenStmts _) (emitsAll site elseStmts _)
  | .whileLoop span cond ⟨bodyStmts, _⟩ =>
    exact .whileLoop rfl rfl rfl (Expr.emits site cond _ _)
      (emitsAll site bodyStmts _)

/-- **The emitter keeps to the rules**, for statements. -/
theorem emitsAll (site : Site) (stmts : List (Stmt Judged))
    (t : SymbolTable) :
    EmitsAll site stmts t ((emitAll site stmts).run t).1
      ((emitAll site stmts).run t).2 := by
  match stmts with
  | [] => exact .nil
  | stmt :: stmts => exact .cons (emits site stmt _) (emitsAll site stmts _)

end

end Stmt

end Primer
