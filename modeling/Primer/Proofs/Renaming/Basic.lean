import Mathlib.Logic.Equiv.Fintype
import Mathlib.Logic.Function.Basic
import Primer.Assembly
import Primer.Proofs.Names
import Primer.Typing.Program

/-!
# Renaming

A program may be given other names: its definitions by one function, and the
variables of each body by a function of the body (`Renaming`), since a variable
belongs to its body and two bodies may mean two things by one name. What names
there are in code and in symbol tables is renamed likewise. A place is renamed
as the variables of the body are, a label and the name of a text as
definitions are, since entries are labels too.

A renaming is *faithful* if it keeps different names different and leaves the
names alone that are made up: those of temporaries by a `%`, and those of
labels and texts by a point. Everything that a compiler and a machine do goes
on in the same way under a faithful renaming, and the modules beside this one
say so of one after the other.
-/

namespace Primer

/-! ## Names -/

/-- **New names in one body.** -/
structure Names where
  /-- Those of places. -/
  slot : Slot → Slot
  /-- Those of definitions, labels and texts. -/
  routine : Ident → Ident

/-- Names that stay. -/
def Names.same : Names := ⟨id, id⟩

/-- **New names in a program.** -/
structure Renaming where
  /-- Those of the variables, in each body. -/
  slot : Ident → Slot → Slot
  /-- Those of the definitions. -/
  routine : Ident → Ident

/-- The new names in one of the bodies. -/
def Renaming.inBody (ρ : Renaming) (body : Ident) : Names :=
  ⟨ρ.slot body, ρ.routine⟩

/-- The new names in the scope around all bodies, which has no places. -/
def Renaming.outside (ρ : Renaming) : Names := ⟨ρ.routine, ρ.routine⟩

/-- **New names are faithful** if they are different for different names, and
the old ones for names that are made up. -/
structure Names.IsFaithful (ν : Names) : Prop where
  /-- Different places get different names. -/
  slot_injective : ν.slot.Injective
  /-- Different definitions and labels get different names. -/
  routine_injective : ν.routine.Injective
  /-- Temporaries keep their names. -/
  temporary : ∀ name, Ident.BeginsWith name '%' → ν.slot name = name
  /-- Labels that are made up, and texts, keep their names. -/
  label : ∀ name, Ident.BeginsWith name '.' → ν.routine name = name

/-- **A renaming is faithful** if it is in every body, and if the main script
keeps its name. -/
structure Renaming.IsFaithful (ρ : Renaming) : Prop where
  /-- It is faithful in every body. -/
  inBody : ∀ body, (ρ.inBody body).IsFaithful
  /-- The main script keeps its name. -/
  entryPoint : ρ.routine Program.entryPoint = Program.entryPoint

/-- **A renaming is injective** if it keeps different names different, also
those that are made up. -/
structure Renaming.IsInjective (ρ : Renaming) : Prop where
  /-- Different places of a body get different names. -/
  slot : ∀ body, (ρ.slot body).Injective
  /-- Different definitions and labels get different names. -/
  routine : ρ.routine.Injective

theorem Renaming.IsFaithful.routine_injective {ρ : Renaming}
    (h : ρ.IsFaithful) : ρ.routine.Injective :=
  (h.inBody Program.entryPoint).routine_injective

theorem Renaming.IsFaithful.isInjective {ρ : Renaming} (h : ρ.IsFaithful) :
    ρ.IsInjective :=
  ⟨fun body => (h.inBody body).slot_injective, h.routine_injective⟩

/-- **Different names are taken to different names by a permutation**, which
leaves all other names alone but some with the same property. -/
theorem exists_perm_map_eq {names names' : List String} (p : String → Prop)
    (hnodup : names.Nodup) (hnodup' : names'.Nodup)
    (hlength : names.length = names'.length) (hp : ∀ name ∈ names, p name)
    (hp' : ∀ name ∈ names', p name) :
    ∃ π : Equiv.Perm String, (∀ name, ¬ p name → π name = name)
      ∧ names.map π = names' := by
  classical
  let old : Fin names.length → {name // p name} :=
    fun i => ⟨names[i], hp _ (List.getElem_mem _)⟩
  let new : Fin names.length → {name // p name} :=
    fun i => ⟨names'[i.cast hlength], hp' _ (List.getElem_mem _)⟩
  have hold : old.Injective := fun i j hij =>
    Fin.ext ((hnodup.getElem_inj_iff).mp (congrArg Subtype.val hij))
  have hnew : new.Injective := fun i j hij =>
    Fin.ext ((hnodup'.getElem_inj_iff).mp (congrArg Subtype.val hij))
  obtain ⟨σ, hσ⟩ := Equiv.Perm.exists_extending_pair old new hold hnew
  refine ⟨σ.subtypeCongr (Equiv.refl _), fun name hname =>
    Equiv.Perm.subtypeCongr.right_apply _ _ hname, ?_⟩
  refine List.ext_getElem (by rw [List.length_map, hlength]) fun i hi hi' => ?_
  have hi : i < names.length := by simpa using hi
  rw [List.getElem_map,
    Equiv.Perm.subtypeCongr.left_apply _ _ (hp _ (List.getElem_mem hi))]
  exact congrArg Subtype.val (hσ ⟨i, hi⟩)

/-! ## Programs -/

variable {α : Type}

namespace Expr

mutual

/-- **The expression with new names.** -/
def rename (ν : Names) : Expr α → Expr α
  | lit note value => lit note value
  | var note name => var note (ν.slot name)
  | binary note op lhs rhs => binary note op (rename ν lhs) (rename ν rhs)
  | not note operand => not note (rename ν operand)
  | input note prompt => input note (rename ν prompt)
  | convert note target operand => convert note target (rename ν operand)
  | call note callee args => call note (ν.routine callee) (renameAll ν args)

/-- The expressions with new names. -/
def renameAll (ν : Names) : List (Expr α) → List (Expr α)
  | [] => []
  | e :: rest => rename ν e :: renameAll ν rest

end

variable {ν : Names}

@[simp] theorem note_rename (e : Expr α) : (e.rename ν).note = e.note := by
  cases e <;> rfl

@[simp] theorem ty_rename (e : Expr Judged) : (e.rename ν).ty = e.ty :=
  congrArg Judged.ty e.note_rename

@[simp] theorem span_rename (e : Expr Judged) : (e.rename ν).span = e.span :=
  congrArg Judged.span e.note_rename

mutual

/-- An expression that keeps its names is the same. -/
theorem rename_same (e : Expr α) : e.rename .same = e := by
  match e with
  | lit _ _ | var _ _ => rfl
  | binary _ _ lhs rhs => rw [rename, rename_same lhs, rename_same rhs]
  | not _ operand | input _ operand | convert _ _ operand =>
    rw [rename, rename_same operand]
  | call _ _ args =>
    rw [rename, renameAll_same args]
    rfl

theorem renameAll_same (es : List (Expr α)) : renameAll .same es = es := by
  match es with
  | [] => rfl
  | e :: es => rw [renameAll, rename_same e, renameAll_same es]

end

@[simp] theorem length_renameAll (es : List (Expr α)) :
    (renameAll ν es).length = es.length := by
  induction es with
  | nil => rfl
  | cons e es ih => rw [renameAll, List.length_cons, ih, List.length_cons]

end Expr

namespace Stmt

mutual

/-- **The statement with new names.** -/
def rename (ν : Names) : Stmt α → Stmt α
  | introduce span name ty init =>
    introduce span (ν.slot name) ty (init.rename ν)
  | assign span name value => assign span (ν.slot name) (value.rename ν)
  | update span op name operand =>
    update span op (ν.slot name) (operand.rename ν)
  | pass span => pass span
  | print span args => print span (Expr.renameAll ν args)
  | ret span value => ret span (value.rename ν)
  | retUnit span => retUnit span
  | call span callee args =>
    call span (ν.routine callee) (Expr.renameAll ν args)
  | ifElse span cond thenBlock elseBlock =>
    ifElse span (cond.rename ν) ⟨renameAll ν thenBlock.stmts, thenBlock.span⟩
      ⟨renameAll ν elseBlock.stmts, elseBlock.span⟩
  | whileLoop span cond body =>
    whileLoop span (cond.rename ν) ⟨renameAll ν body.stmts, body.span⟩

/-- The statements with new names. -/
def renameAll (ν : Names) : List (Stmt α) → List (Stmt α)
  | [] => []
  | stmt :: rest => rename ν stmt :: renameAll ν rest

end

@[simp] theorem span_rename {ν : Names} (stmt : Stmt α) :
    (stmt.rename ν).span = stmt.span := by
  cases stmt <;> rfl

mutual

/-- A statement that keeps its names is the same. -/
theorem rename_same (stmt : Stmt α) : stmt.rename .same = stmt := by
  match stmt with
  | pass _ | retUnit _ => rfl
  | ret _ value => rw [rename, value.rename_same]
  | introduce _ _ _ value | assign _ _ value | update _ _ _ value =>
    rw [rename, value.rename_same]
    rfl
  | print _ args => rw [rename, Expr.renameAll_same args]
  | call _ _ args =>
    rw [rename, Expr.renameAll_same args]
    rfl
  | ifElse _ cond ⟨thenStmts, _⟩ ⟨elseStmts, _⟩ =>
    rw [rename, cond.rename_same, renameAll_same thenStmts,
      renameAll_same elseStmts]
  | whileLoop _ cond ⟨stmts, _⟩ =>
    rw [rename, cond.rename_same, renameAll_same stmts]

theorem renameAll_same (stmts : List (Stmt α)) :
    renameAll .same stmts = stmts := by
  match stmts with
  | [] => rfl
  | stmt :: stmts => rw [renameAll, rename_same stmt, renameAll_same stmts]

end

end Stmt

/-- The block with new names. -/
def Block.rename (ν : Names) (b : Block (Stmt α)) : Block (Stmt α) :=
  ⟨Stmt.renameAll ν b.stmts, b.span⟩

/-- Parameters with new names. -/
def Names.params (ν : Names) (params : List (Slot × Ty)) :
    List (Slot × Ty) :=
  params.map fun b => (ν.slot b.1, b.2)

@[simp] theorem Names.map_snd_params (ν : Names) (bs : List (Slot × Ty)) :
    (ν.params bs).map Prod.snd = bs.map Prod.snd := by
  rw [Names.params, List.map_map]
  rfl

/-- **The definition with new names.** -/
def Definition.rename (ρ : Renaming) (d : Definition α) : Definition α where
  name := ρ.routine d.name
  params := (ρ.inBody d.name).params d.params
  ret := d.ret
  body := d.body.rename (ρ.inBody d.name)
  nameSpan := d.nameSpan

theorem Definition.signature_rename (ρ : Renaming) (d : Definition α) :
    (d.rename ρ).signature = d.signature :=
  congrArg (Signature.mk · d.ret) ((ρ.inBody d.name).map_snd_params d.params)

/-- **The program with new names.** -/
def Program.rename (ρ : Renaming) (p : Program α) : Program α where
  definitions := p.definitions.map (·.rename ρ)
  main := p.main.rename (ρ.inBody entryPoint)

/-- **The new name of a definition has the signature of the old one.** -/
theorem Program.signature?_rename {ρ : Renaming} (hρ : ρ.routine.Injective)
    (p : Program α) (callee : Ident) :
    (p.rename ρ).signature? (ρ.routine callee) = p.signature? callee := by
  have hname : (fun d : Definition α => d.name == ρ.routine callee)
      ∘ Definition.rename ρ = (·.name == callee) := by
    funext d
    exact hρ.beq_eq
  have hsignature : Definition.signature ∘ Definition.rename ρ
      = Definition.signature (α := α) := funext (Definition.signature_rename ρ)
  unfold signature? rename
  rw [List.find?_map, Option.map_map, hname, hsignature]

/-! ## Symbol tables -/

/-- The symbol with a new name. -/
def Symbol.rename (ν : Names) (s : Symbol) : Symbol :=
  { s with name := if s.isStorage then ν.slot s.name else ν.routine s.name }

/-- **The scope with new names.** -/
def Scope.rename (ν : Names) (s : Scope) : Scope :=
  ⟨ν.routine s.owner, s.newestFirst.map (·.rename ν)⟩

/-- **The symbol table with new names**, each scope with those of the body
that it belongs to. -/
def SymbolTable.rename (ρ : Renaming) (t : SymbolTable) : SymbolTable where
  global := ⟨t.global.owner, t.global.newestFirst.map (·.rename ρ.outside)⟩
  nested := t.nested.map fun s => s.rename (ρ.inBody s.owner)
  counter := t.counter

/-! ## Code -/

/-- **The instruction with new names.** -/
def Instr.rename (ν : Names) : Instr → Instr
  | label name => label (ν.routine name)
  | enter => enter
  | leave => leave
  | move dst src => move (ν.slot dst) (ν.slot src)
  | set dst value => set (ν.slot dst) value
  | arith op dst lhs rhs => arith op (ν.slot dst) (ν.slot lhs) (ν.slot rhs)
  | jump target => jump (ν.routine target)
  | branchCompare op lhs rhs ifTrue ifFalse =>
    branchCompare op (ν.slot lhs) (ν.slot rhs) (ν.routine ifTrue)
      (ν.routine ifFalse)
  | branchZero test src ifTrue ifFalse =>
    branchZero test (ν.slot src) (ν.routine ifTrue) (ν.routine ifFalse)
  | setArgument index src => setArgument index (ν.slot src)
  | call callee => call (ν.routine callee)
  | fetchResult dst => fetchResult (ν.slot dst)
  | setResult src => setResult (ν.slot src)
  | loadString dst constant =>
    loadString (ν.slot dst) (ν.routine constant)
  | printInt src => printInt (ν.slot src)
  | printString src => printString (ν.slot src)
  | readInt dst => readInt (ν.slot dst)
  | intToStr dst src => intToStr (ν.slot dst) (ν.slot src)
  | strToInt dst src => strToInt (ν.slot dst) (ν.slot src)
  | nop => nop

/-- The code with new names. -/
def Code.rename (ν : Names) (code : Code) : Code := code.map (·.rename ν)

namespace Code

variable {ν : Names}

@[simp] theorem rename_nil : rename ν [] = [] := rfl

@[simp] theorem rename_cons (i : Instr) (code : Code) :
    rename ν (i :: code) = i.rename ν :: rename ν code := rfl

@[simp] theorem rename_append (code rest : Code) :
    rename ν (code ++ rest) = rename ν code ++ rename ν rest :=
  List.map_append

end Code

/-- **The routine with new names.** -/
def Routine.rename (ρ : Renaming) (r : Routine) : Routine where
  prototype := {
    name := ρ.routine r.name
    params := (ρ.inBody r.name).params r.prototype.params
    ret := r.prototype.ret
    scope := r.prototype.scope }
  code := r.code.rename (ρ.inBody r.name)

/-- **The assembled program with new names.** -/
def Assembly.rename (ρ : Renaming) (a : Assembly) : Assembly where
  routines := a.routines.map (·.rename ρ)
  main := a.main.rename ρ
  symbols := a.symbols.rename ρ

end Primer
