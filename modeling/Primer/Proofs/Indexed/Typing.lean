import Primer.Proofs.Indexed.Answers
import Primer.Proofs.Indexed.Tables

/-!
# The check over an indexed table

`Program.checkIndexed` threads one table through the check of all bodies, and
`Program.check` gives each body a scope of its own. They agree
(`Program.checkIndexed_agrees`): the same trees, the same errors, and a table
in step that is, without its indexes, the table of `Program.check`. So what is
declared in a body goes to the scope that was opened for it, and to no other.

While a body is checked, its scope is *open* (`IndexedTable.Open`): the table
is in step, the scope is one of its nested ones, and the global scope has no
symbols, so that a lookup which goes on there finds nothing. A check of an
expression only reads the table, and it is the check in the open scope
(`Expr.checkIn_eq`). A statement leaves a table that is *reached* from the one
before (`IndexedTable.Reached`): the open scope has become the scope that
`Stmt.check` gives, and nothing else has changed.
-/

namespace Primer

/-! ## Tables with an open scope -/

namespace SymbolTable

variable {t : SymbolTable} {id : ScopeId}

theorem modify_scope_self (t : SymbolTable) (id : ScopeId) :
    (t.modify id fun _ => t.scope id) = t := by
  cases id with
  | global => rfl
  | nested i =>
    have hnested : t.nested.modify i (fun _ => t.scope (.nested i))
        = t.nested := by
      refine List.ext_getElem (by simp) fun j hj hj' => ?_
      rw [List.getElem_modify]
      split
      · next hij =>
        subst hij
        simp [scope, hj']
      · rfl
    show { t with nested := _ } = t
    rw [hnested]

theorem modify_modify (t : SymbolTable) (id : ScopeId) (s s' : Scope) :
    ((t.modify id fun _ => s).modify id fun _ => s')
      = t.modify id fun _ => s' := by
  cases id with
  | global => rfl
  | nested i =>
    simp [modify, List.modify_modify_eq, Function.comp_def]

end SymbolTable

namespace IndexedTable

/-- **A scope of a table is open**: the table is in step, and the scope is a
nested one in a table without global symbols. -/
structure Open (t : IndexedTable) (id : ScopeId) : Prop where
  /-- The table is in step. -/
  inStep : t.InStep
  /-- The scope is there. -/
  has : t.Has id
  /-- It is not the global one. -/
  ne_global : id ≠ .global
  /-- There are no global symbols. -/
  global : t.plain.global.newestFirst = []

variable {t : IndexedTable} {id : ScopeId}

/-- **A variable has the type that its scope gives it**: the lookup goes on to
the global scope, and finds nothing there. -/
theorem Open.typeOf (h : t.Open id) (name : Ident) (span : Span) :
    t.typeOf id name span = liftM ((t.plain.scope id).typeOf name span) := by
  have hglobal : t.plain.global.find? name = none := by
    simp [Scope.find?, h.global]
  unfold IndexedTable.typeOf Scope.typeOf
  rw [h.inStep.lookup h.has, SymbolTable.lookup, hglobal]
  cases (t.plain.scope id).find? name with
  | none => rfl
  | some symbol =>
    obtain ⟨_, _, ty?⟩ := symbol
    cases ty? <;> rfl

end IndexedTable

/-! ## Expressions -/

namespace Expr

variable {sigs : Signatures} {t : IndexedTable} {id : ScopeId}

mutual

/-- **An expression is checked as in the open scope.** -/
theorem checkIn_eq (h : t.Open id) (e : Expr Span) :
    e.checkIn sigs t id = liftM (e.check sigs (t.plain.scope id)) := by
  match e with
  | lit span value => simp [checkIn, check]
  | var span name => simp [checkIn, check, h.typeOf]
  | binary span op lhs rhs =>
    simp [checkIn, check, checkIn_eq h lhs, checkIn_eq h rhs]
  | not span operand => simp [checkIn, check, checkIn_eq h operand]
  | input span prompt => simp [checkIn, check, checkIn_eq h prompt]
  | convert span target operand =>
    simp [checkIn, check, checkIn_eq h operand]
  | call span callee args =>
    simp [checkIn, check, checkArgsIn_eq h callee]

/-- Arguments are checked as in the open scope. -/
theorem checkArgsIn_eq (h : t.Open id) (callee : Ident) (index : Nat)
    (params : List Ty) (args : List (Expr Span)) :
    checkArgsIn sigs t id callee index params args = liftM
      (checkArgs sigs (t.plain.scope id) callee index params args) := by
  match params, args with
  | [], _ | _ :: _, [] => simp [checkArgsIn, checkArgs]
  | param :: params, arg :: args =>
    simp [checkArgsIn, checkArgs, checkIn_eq h arg,
      checkArgsIn_eq h callee (index + 1) params args]

end

theorem checkAllIn_eq (h : t.Open id) (es : List (Expr Span)) :
    checkAllIn sigs t id es
      = liftM (checkAll sigs (t.plain.scope id) es) := by
  induction es with
  | nil => simp [checkAllIn, checkAll]
  | cons e es ih => simp [checkAllIn, checkAll, checkIn_eq h, ih]

end Expr

/-! ## Statements -/

namespace IndexedTable

variable {t t' t'' : IndexedTable} {id : ScopeId} {s s' : Scope}

/-- **A table is reached** from a table whose open scope has become another
one. -/
structure Reached (t : IndexedTable) (id : ScopeId) (t' : IndexedTable)
    (s : Scope) : Prop where
  /-- The scope is still open. -/
  isOpen : t'.Open id
  /-- Nothing else has changed. -/
  plain : t'.plain = t.plain.modify id fun _ => s

theorem Open.reached (h : t.Open id) : Reached t id t (t.plain.scope id) :=
  ⟨h, (SymbolTable.modify_scope_self t.plain id).symm⟩

theorem Open.plain_has (h : t.Open id) : t.plain.Has id :=
  h.inStep.has_plain.mpr h.has

theorem Reached.scope (h : t.Open id) (hreached : Reached t id t' s) :
    t'.plain.scope id = s := by
  rw [hreached.plain, SymbolTable.scope_modify_self h.plain_has]

theorem Reached.trans (h : Reached t id t' s) (h' : Reached t' id t'' s') :
    Reached t id t'' s' where
  isOpen := h'.isOpen
  plain := by rw [h'.plain, h.plain, SymbolTable.modify_modify]

end IndexedTable

/-- Adds a symbol to a scope, if its name is new there. -/
def Scope.declareAt (s : Scope) (symbol : Symbol) (span : Span) :
    Check Scope :=
  match s.declare symbol with
  | .ok s => .ok s
  | .error _ => refuse (.redeclared symbol.name) span

namespace IndexedTable

variable {t t' : IndexedTable} {id : ScopeId} {s : Scope}

/-- A table in step in which the open scope has become another one is reached.
-/
theorem Open.reaches (h : t.Open id) (hstep : t'.InStep)
    (hplain : t'.plain = t.plain.modify id fun _ => s) :
    Reached t id t' s where
  plain := hplain
  isOpen := by
    refine ⟨hstep, ?_, h.ne_global, ?_⟩
    · rw [← hstep.has_plain, hplain, SymbolTable.has_modify,
        h.inStep.has_plain]
      exact h.has
    · rw [hplain]
      cases id with
      | global => exact absurd rfl h.ne_global
      | nested i => exact h.global

/-- **A symbol is declared in the open scope.** -/
theorem Open.declareIn (h : t.Open id) {symbol : Symbol}
    (hkind : ∀ text, symbol.kind ≠ .constant text) (span : Span) :
    Agrees (fun r => Reached t id r.2)
      ((Primer.declareIn id symbol span).run t)
      ((t.plain.scope id).declareAt symbol span) := by
  have hanswer := h.inStep.declare h.has hkind
  unfold SymbolTable.declare at hanswer
  unfold Primer.declareIn Scope.declareAt
  cases hs : (t.plain.scope id).declare symbol with
  | ok s =>
    obtain ⟨t', ht, hstep, hplain⟩ | ⟨error, -, hplain⟩ := hs ▸ hanswer
    · have hplain : t'.plain = t.plain.modify id fun _ => s :=
        (Except.ok.inj hplain).symm
      exact ⟨((), t'), by simp [ht], h.reaches hstep hplain⟩
    · exact absurd hplain nofun
  | error error =>
    obtain ⟨t', -, -, hplain⟩ | ⟨error', ht, -⟩ := hs ▸ hanswer
    · exact absurd hplain nofun
    · show _ = _
      simp [ht]
      exact ⟨_, rfl, rfl⟩

end IndexedTable

namespace Stmt

open IndexedTable

variable {sigs : Signatures} {t : IndexedTable} {id : ScopeId}

theorem checkConditionIn_eq (h : t.Open id) (construct : Construct)
    (cond : Expr Span) :
    checkConditionIn sigs t id construct cond
      = liftM (checkCondition sigs (t.plain.scope id) construct cond) := by
  simp [checkConditionIn, checkCondition, Expr.checkIn_eq h]

/-- What comes of a statement, with the table after it, goes with what is
checked in the open scope: the code is the same, so is its summary, and the
open scope has become the scope after the statement. -/
def After {σ : Type} (t : IndexedTable) (id : ScopeId) :
    (σ × Returns) × IndexedTable → Checked σ → Prop
  | (outcome, t'), c =>
    outcome = (c.code, c.returns) ∧ Reached t id t' c.scope

mutual

/-- **A statement is checked as in the open scope.** -/
theorem checkIn_agrees {t : IndexedTable} (expected : Expected)
    (h : t.Open id) (stmt : Stmt Span) :
    Agrees (After t id) ((checkIn sigs expected id stmt).run t)
      (check sigs expected (t.plain.scope id) stmt) := by
  match stmt with
  | introduce span name ty init =>
    unfold checkIn check
    refine .read_bind (Expr.checkIn_eq h init) fun init => ?_
    refine .lift_bind rfl fun _ => ?_
    refine .run_bind (h.declareIn (fun _ => SymbolKind.noConfusion) span)
      fun _ t' s hs => ?_
    exact .ok ⟨rfl, hs⟩
  | assign span name value =>
    unfold checkIn check
    refine .read_bind (h.typeOf name span) fun target => ?_
    refine .read_bind (Expr.checkIn_eq h value) fun value => ?_
    refine .lift_bind rfl fun _ => ?_
    exact .ok ⟨rfl, h.reached⟩
  | update span op name operand =>
    unfold checkIn check
    refine .read_bind (h.typeOf name span) fun target => ?_
    refine .lift_bind rfl fun _ => ?_
    refine .read_bind (Expr.checkIn_eq h operand) fun operand => ?_
    refine .lift_bind rfl fun _ => ?_
    exact .ok ⟨rfl, h.reached⟩
  | pass span => exact .ok ⟨rfl, h.reached⟩
  | print span args =>
    unfold checkIn check
    refine .read_bind (Expr.checkAllIn_eq h args) fun args => ?_
    exact .ok ⟨rfl, h.reached⟩
  | ret span value =>
    unfold checkIn check
    cases expected with
    | none => rfl
    | some ty =>
      refine .read_bind (Expr.checkIn_eq h value) fun value => ?_
      refine .lift_bind rfl fun _ => ?_
      exact .ok ⟨rfl, h.reached⟩
  | retUnit span =>
    unfold checkIn check
    cases expected with
    | none => rfl
    | some ty =>
      refine .lift_bind rfl fun _ => ?_
      exact .ok ⟨rfl, h.reached⟩
  | call span callee args =>
    unfold checkIn check
    refine .lift_bind rfl fun sig => ?_
    refine .read_bind (Expr.checkArgsIn_eq h callee 0 _ args) fun args => ?_
    refine .lift_bind rfl fun _ => ?_
    exact .ok ⟨rfl, h.reached⟩
  | ifElse span cond thenBlock elseBlock =>
    unfold checkIn check
    refine .read_bind (checkConditionIn_eq h _ cond) fun cond => ?_
    refine .run_bind (checkAllIn_agrees expected h .never thenBlock.stmts) ?_
    rintro _ t₁ one ⟨rfl, h₁⟩
    -- the other block is checked in the scope that the first one leaves
    have hother :=
      checkAllIn_agrees expected h₁.isOpen .never elseBlock.stmts
    rw [h₁.scope h] at hother
    refine .run_bind hother ?_
    rintro _ t₂ other ⟨rfl, h₂⟩
    refine .lift_bind rfl fun returns => ?_
    exact .ok ⟨rfl, h₁.trans h₂⟩
  | whileLoop span cond body =>
    unfold checkIn check
    refine .read_bind (checkConditionIn_eq h _ cond) fun cond => ?_
    refine .run_bind (checkAllIn_agrees expected h .never body.stmts) ?_
    rintro _ t' checked ⟨rfl, h'⟩
    exact .ok ⟨rfl, h'⟩

/-- Statements are checked as in the open scope. -/
theorem checkAllIn_agrees {t : IndexedTable} (expected : Expected)
    (h : t.Open id) (before : Returns) (stmts : List (Stmt Span)) :
    Agrees (After t id) ((checkAllIn sigs expected id before stmts).run t)
      (checkAll sigs expected (t.plain.scope id) before stmts) := by
  match stmts with
  | [] => exact .ok ⟨rfl, h.reached⟩
  | stmt :: rest =>
    unfold checkAllIn checkAll
    refine .run_bind (checkIn_agrees expected h stmt) ?_
    rintro _ t₁ first ⟨rfl, h₁⟩
    refine .lift_bind rfl fun returns => ?_
    have hrest := checkAllIn_agrees expected h₁.isOpen returns rest
    rw [h₁.scope h] at hrest
    refine .run_bind hrest ?_
    rintro _ t₂ rest ⟨rfl, h₂⟩
    exact .ok ⟨rfl, h₁.trans h₂⟩

end

end Stmt

theorem Block.checkIn_agrees (sigs : Signatures) {t : IndexedTable}
    {id : ScopeId} (expected : Stmt.Expected) (h : t.Open id)
    (block : Block (Stmt Span)) :
    Agrees (Stmt.After t id) ((block.checkIn sigs expected id).run t)
      (block.check sigs expected (t.plain.scope id)) := by
  refine .run_bind (Stmt.checkAllIn_agrees expected h .never block.stmts) ?_
  rintro _ t' checked ⟨rfl, h'⟩
  exact .ok ⟨rfl, h'⟩

/-! ## Programs -/

namespace IndexedTable

variable {t t' t'' : IndexedTable} {scopes scopes' : List Scope}

/-- **A table is extended** by scopes. -/
structure Extended (t t' : IndexedTable) (scopes : List Scope) : Prop where
  /-- The table is in step. -/
  inStep : t'.InStep
  /-- It has the scopes beside those that it had. -/
  plain : t'.plain = { t.plain with nested := t.plain.nested ++ scopes }

theorem Extended.refl (h : t.InStep) : Extended t t [] where
  inStep := h
  plain := by simp

theorem Extended.trans (h : Extended t t' scopes)
    (h' : Extended t' t'' scopes') : Extended t t'' (scopes ++ scopes') where
  inStep := h'.inStep
  plain := by simp [h'.plain, h.plain]

theorem Extended.global (h : Extended t t' scopes) :
    t'.plain.global = t.plain.global := by
  rw [h.plain]

/-- **A scope that is opened is open**, as long as nothing is global. -/
theorem InStep.addScope_open (h : t.InStep)
    (hglobal : t.plain.global.newestFirst = []) (owner : String) :
    (t.addScope owner).2.Open (t.addScope owner).1
      ∧ (t.addScope owner).2.plain.scope (t.addScope owner).1 = .empty owner
      := by
  obtain ⟨t', ht, hstep, hplain⟩ := h.addScope owner
  have hadd : t.addScope owner = (.nested t.plain.nested.length, t') :=
    Option.some.inj ht
  rw [hadd]
  refine ⟨⟨hstep, ?_, nofun, ?_⟩, ?_⟩
  · rw [← hstep.has_plain, hplain, SymbolTable.has_addScope]
    exact .inr rfl
  · rw [hplain]
    exact hglobal
  · rw [hplain, SymbolTable.scope_addScope_self]

/-- A table with one more scope is extended by what the scope has become. -/
theorem InStep.addScope_extended (h : t.InStep) {owner : String} {s : Scope}
    (hreached : Reached (t.addScope owner).2 (t.addScope owner).1 t' s) :
    Extended t t' [s] where
  inStep := hreached.isOpen.inStep
  plain := by
    obtain ⟨t₁, ht, -, hplain⟩ := h.addScope owner
    have hadd : t.addScope owner = (.nested t.plain.nested.length, t₁) :=
      Option.some.inj ht
    have hmodify := hreached.plain
    rw [hadd, hplain] at hmodify
    rw [hmodify]
    simp [SymbolTable.addScope, SymbolTable.modify,
      List.modify_eq_set_getElem?]

end IndexedTable

namespace Definition

open IndexedTable

variable {sigs : Signatures} {t : IndexedTable} {id : ScopeId}

theorem bindParams_cons (s : Scope) (nameSpan : Span) (name : Ident) (ty : Ty)
    (params : List (Ident × Ty)) :
    bindParams s nameSpan ((name, ty) :: params) = (do
      let s ← s.declareAt (.formal name ty) nameSpan
      bindParams s nameSpan params) := by
  rw [bindParams, Scope.declareAt]
  cases s.declare (.formal name ty) <;> rfl

/-- Parameters are declared in the open scope. -/
theorem bindParamsIn_agrees {t : IndexedTable} (h : t.Open id)
    (nameSpan : Span) (params : List (Ident × Ty)) :
    Agrees (fun r => Reached t id r.2)
      ((bindParamsIn id nameSpan params).run t)
      (bindParams (t.plain.scope id) nameSpan params) := by
  induction params generalizing t with
  | nil => exact .ok h.reached
  | cons param params ih =>
    obtain ⟨name, ty⟩ := param
    rw [bindParams_cons]
    refine .run_bind (h.declareIn (fun _ => SymbolKind.noConfusion) _) ?_
    intro _ t₁ s₁ h₁
    have hparams := ih h₁.isOpen
    rw [h₁.scope h] at hparams
    exact hparams.imp fun _ _ h₂ => h₁.trans h₂

/-- **A definition is checked as in a scope of its own.** -/
theorem checkIn_agrees {t : IndexedTable} (h : t.InStep)
    (hglobal : t.plain.global.newestFirst = []) (d : Definition Span) :
    Agrees (fun r p => r.1 = p.1 ∧ Extended t r.2 [p.2])
      ((d.checkIn sigs).run t) (d.check sigs) := by
  obtain ⟨hopen, hscope⟩ := h.addScope_open hglobal d.name
  have hparams := bindParamsIn_agrees hopen d.nameSpan d.params
  rw [hscope] at hparams
  refine .modifyGet_bind (.run_bind hparams fun _ t₁ s₁ h₁ => ?_)
  have hbody := Block.checkIn_agrees sigs (some d.ret) h₁.isOpen d.body
  rw [h₁.scope hopen] at hbody
  refine .run_bind hbody ?_
  rintro _ t₂ body ⟨rfl, h₂⟩
  refine .lift_bind rfl fun _ => ?_
  exact .ok ⟨rfl, h.addScope_extended (h₁.trans h₂)⟩

/-- Definitions are checked as in scopes of their own. -/
theorem checkAllIn_agrees {t : IndexedTable} (h : t.InStep)
    (hglobal : t.plain.global.newestFirst = []) (ds : List (Definition Span)) :
    Agrees (fun r ps => r.1 = ps.map Prod.fst
        ∧ Extended t r.2 (ps.map Prod.snd))
      ((checkAllIn sigs ds).run t) (checkAll sigs ds) := by
  induction ds generalizing t with
  | nil => exact .ok ⟨rfl, .refl h⟩
  | cons d ds ih =>
    refine .run_bind (checkIn_agrees h hglobal d) ?_
    rintro _ t₁ ⟨d, s⟩ ⟨rfl, h₁⟩
    refine .run_bind (ih h₁.inStep (h₁.global.symm ▸ hglobal)) ?_
    rintro _ t₂ ps ⟨rfl, h₂⟩
    exact .ok ⟨rfl, h₁.trans h₂⟩

/-- **Signatures are collected if the names are distinct.** Those that the map
has are of earlier definitions, and their names are not used again. -/
theorem collect_agrees {map : SignatureMap} {earlier : List Ident}
    (hmap : ∀ name, map.contains name ↔ name ∈ earlier)
    (ds : List (Definition Span)) :
    Agrees (fun map' _ => ∀ name, map'[name]? = (map[name]? <|>
        (ds.find? (·.name == name)).map signature))
      (liftM (collect map ds)) (expectDistinct earlier ds) := by
  induction ds generalizing map earlier with
  | nil => exact .ok fun name => by simp
  | cons d ds ih =>
    unfold collect expectDistinct
    simp only [hmap]
    split
    · rfl
    · next hnew =>
      have hnone : map[d.name]? = none := by
        have hmem : d.name ∉ map :=
          fun hmem => hnew (.inr ((hmap d.name).mp hmem))
        simp [hmem]
      have hmap' : ∀ name, (map.insert d.name d.signature).contains name
          ↔ name ∈ d.name :: earlier := by
        intro name
        simp [hmap, @eq_comm _ name]
      refine (ih hmap').imp fun map' _ hmap' name => ?_
      rw [hmap', Std.HashMap.getElem?_insert]
      by_cases hname : d.name = name
      · subst hname
        simp [hnone]
      · simp [hname]

end Definition

/-- **A checked program without its indexes.** -/
def IndexedProgram.plain (p : IndexedProgram) : TypedProgram :=
  ⟨p.program, p.symbols.plain⟩

namespace Program

/-- Bodies are checked as in scopes of their own. -/
theorem checkBodies_agrees (sigs : Signatures) (p : Program Span) :
    Agrees (fun r typed => r.2.InStep
        ∧ IndexedProgram.plain ⟨r.1, r.2⟩ = typed)
      ((p.checkBodies sigs).run .empty) (do
        let definitions ← Definition.checkAll sigs p.definitions
        let main ← p.main.check sigs none (.empty entryPoint)
        let scopes := definitions.map Prod.snd ++ [main.scope]
        return ⟨⟨definitions.map Prod.fst, main.code⟩,
          { SymbolTable.empty with nested := scopes }⟩) := by
  have hempty : IndexedTable.empty.InStep := IndexedTable.inStep_empty
  refine .run_bind (Definition.checkAllIn_agrees hempty rfl p.definitions) ?_
  rintro _ t₁ ps ⟨rfl, h₁⟩
  have hglobal : t₁.plain.global.newestFirst = [] := by
    rw [h₁.global]
    rfl
  obtain ⟨hopen, hscope⟩ := h₁.inStep.addScope_open hglobal entryPoint
  have hmain := Block.checkIn_agrees sigs none hopen p.main
  rw [hscope] at hmain
  refine .modifyGet_bind (.run_bind hmain ?_)
  rintro _ t₂ main ⟨rfl, h₂⟩
  have htable := h₁.trans (h₁.inStep.addScope_extended h₂)
  refine .ok ⟨htable.inStep, ?_⟩
  simp [IndexedProgram.plain, htable.plain, SymbolTable.empty]

/-- **The check over an indexed table is the check**: it does not break off,
it has the same errors, and the program that it gives is, without its indexes,
the program that the check gives. -/
theorem checkIndexed_agrees (p : Program Span) :
    Agrees (fun typed typed' => typed.symbols.InStep ∧ typed.plain = typed')
      p.checkIndexed p.check := by
  have hempty : ∀ name, (∅ : SignatureMap).contains name ↔ name ∈ [] := by
    simp
  refine (Definition.collect_agrees hempty p.definitions).bind
    fun map _ hmap => ?_
  have hsigs : map.signatures = p.signature? := by
    funext name
    simp [SignatureMap.signatures, hmap, signature?]
  rw [hsigs]
  exact (checkBodies_agrees _ p).bind_ok fun _ _ h => .ok h

variable {p : Program Span} {typed : IndexedProgram}

/-- What passes the check over an indexed table passes the check. -/
theorem check_of_checkIndexed (h : p.checkIndexed.run = some (.ok typed)) :
    p.check = .ok typed.plain ∧ typed.symbols.InStep := by
  obtain ⟨_, hplain, hstep, rfl⟩ := p.checkIndexed_agrees.exists_of_ok h
  exact ⟨hplain, hstep⟩

/-- **The scope of every body is inside the global one**, as the table has
it. -/
theorem parent_of_checkIndexed (h : p.checkIndexed.run = some (.ok typed))
    {owner : Ident} {id : ScopeId}
    (hid : typed.symbols.scopeOf? owner = some id) :
    typed.symbols.parent id = some (some .global) := by
  have hstep := (check_of_checkIndexed h).2
  rw [hstep.scopeOf?] at hid
  have hhas := hstep.has_plain.mp (SymbolTable.has_of_scopeOf? hid)
  rw [hstep.parent hhas]
  cases id with
  | global => exact absurd rfl (SymbolTable.ne_global_of_scopeOf? hid)
  | nested i => rfl

end Program

end Primer
