import Primer.Proofs.Emission.Requests
import Primer.Proofs.Renaming.Typing

/-!
# Emitting code for a renamed program

A renamed program gets the same code under new names, since the emitter looks
at names nowhere: it copies the names of a program into the code, and the
names that it makes up depend on a counter alone. So a renamed table answers
the requests of a body as the table does, under new names
(`SymbolTable.serve_rename`), and code that is emitted over tables that answer
alike is the same but for the names (`Emit.Mirrors.run_rename`).

Names are looked at where a routine begins, when the scope of the body is
looked up and the entry is declared. There it matters that different names
stay different.
-/

namespace Primer

open SymbolTable Text

variable {ρ : Renaming} {ν : Names}

theorem beginsWith_temporary (n : Nat) :
    Ident.BeginsWith ("%t" ++ Decimal.ofNat n) '%' := by
  unfold Ident.BeginsWith
  rw [String.toList_append]
  rfl

/-! ## Tables -/

/-- Pushing a symbol whose name stays to one of the scopes. -/
theorem Scope.map_modify_push {symbol : Symbol}
    (hsymbol : ∀ body, symbol.rename (ρ.inBody body) = symbol)
    (ss : List Scope) (i : Nat) :
    ((ss.modify i (·.push symbol)).map fun s => s.rename (ρ.inBody s.owner))
      = (ss.map fun s => s.rename (ρ.inBody s.owner)).modify i
        (·.push symbol) := by
  induction ss generalizing i with
  | nil => rw [List.modify_nil, List.map_nil, List.modify_nil]
  | cons s ss ih =>
    cases i with
    | zero =>
      rw [List.modify_zero_cons, List.map_cons, List.map_cons,
        List.modify_zero_cons]
      exact congrArg (fun pushed => Scope.mk _ (pushed :: _) :: _) (hsymbol _)
    | succ i =>
      rw [List.modify_succ_cons, List.map_cons, List.map_cons,
        List.modify_succ_cons, ih]

namespace SymbolTable

variable {t : SymbolTable} {id : ScopeId}

/-- **A table grows before or after renaming** by a name that stays. -/
theorem rename_grown (hid : id ≠ .global) {stem : String}
    {symbol : String → Symbol} (hsymbol : ∀ body,
      (symbol (stem ++ Decimal.ofNat t.counter)).rename (ρ.inBody body)
        = symbol (stem ++ Decimal.ofNat t.counter)) :
    (t.grown stem id symbol).rename ρ
      = (t.rename ρ).grown stem id symbol := by
  cases id with
  | global => exact absurd rfl hid
  | nested i =>
    exact congrArg (SymbolTable.mk _ · _)
      (Scope.map_modify_push hsymbol t.nested i)

/-- **A new temporary is the same in a renamed table.** -/
theorem freshTemporary_rename (hρ : ρ.IsFaithful) (hid : id ≠ .global)
    (ty : Ty) :
    (t.rename ρ).freshTemporary id ty = ((t.freshTemporary id ty).1,
      (t.freshTemporary id ty).2.rename ρ) := by
  rw [freshTemporary_eq, freshTemporary_eq, rename_grown hid fun body => ?_]
  · rfl
  · exact congrArg (Symbol.temporary · ty)
      ((hρ.inBody body).temporary _ (beginsWith_temporary t.counter))

/-- **A new label is the same in a renamed table.** -/
theorem freshLabel_rename (hρ : ρ.IsFaithful) (hid : id ≠ .global)
    (hint : String) :
    (t.rename ρ).freshLabel id (some hint)
      = ((t.freshLabel id (some hint)).1,
        (t.freshLabel id (some hint)).2.rename ρ) := by
  rw [freshLabel_eq, freshLabel_eq, rename_grown hid fun body => ?_]
  · rfl
  · exact congrArg Symbol.label
      ((hρ.inBody body).label _ (Ident.beginsWith_point hint _))

theorem labelOf?_rename (text : String) :
    (t.rename ρ).labelOf? text = (t.labelOf? text).map ρ.routine := by
  unfold labelOf? rename
  rw [List.find?_map, Option.map_map, Option.map_map]
  exact congrArg (Option.map · _) (funext fun s => ite_self _)

/-- **The name of a text** in a renamed table is the new name of it. -/
theorem intern_rename (hρ : ρ.IsFaithful) (text : String) :
    (t.rename ρ).intern text
      = (ρ.routine (t.intern text).1, (t.intern text).2.rename ρ) := by
  have hlabelOf := labelOf?_rename (ρ := ρ) (t := t) text
  cases hlabel : t.labelOf? text with
  | some label =>
    rw [hlabel] at hlabelOf
    rw [intern_of_some hlabel, intern_of_some hlabelOf]
  | none =>
    rw [hlabel] at hlabelOf
    have hname : ρ.routine (".str" ++ Decimal.ofNat t.counter)
        = ".str" ++ Decimal.ofNat t.counter :=
      (hρ.inBody "").label _ (Ident.beginsWith_point "str" _)
    rw [intern_of_none hlabel, intern_of_none hlabelOf, hname]
    refine congrArg (Prod.mk _) ?_
    refine congrArg (SymbolTable.mk · _ _) ?_
    refine congrArg (Scope.mk _) (congrArg (· :: _) ?_)
    exact (congrArg (Symbol.constant · text) hname).symm

/-- **The scope of a body** in a renamed table is that of its new name. -/
theorem scopeOf?_rename (hρ : ρ.routine.Injective) (owner : Ident) :
    (t.rename ρ).scopeOf? (ρ.routine owner) = t.scopeOf? owner := by
  refine congrArg (Option.map _) ?_
  show lastOwned? _ (t.nested.map _) = lastOwned? owner t.nested
  induction t.nested with
  | nil => rfl
  | cons s ss ih =>
    rw [List.map_cons, lastOwned?, lastOwned?, ih]
    cases lastOwned? owner ss with
    | some i => rfl
    | none => exact if_congr hρ.eq_iff rfl rfl

/-- **What a global name means** in a renamed table is what the old one meant,
renamed. -/
theorem find?_global_rename (hρ : ρ.routine.Injective) (name : Ident) :
    (t.rename ρ).global.find? (ρ.routine name)
      = (t.global.find? name).map (·.rename ρ.outside) := by
  show ((t.global.newestFirst.map _).find? _) = _
  rw [List.find?_map]
  refine congrArg (Option.map _) (congrArg (List.find? · _) ?_)
  funext s
  show ((s.rename ρ.outside).name == ρ.routine name) = _
  rw [show (s.rename ρ.outside).name = ρ.routine s.name from ite_self _,
    hρ.beq_eq]

theorem declare_rename (hρ : ρ.routine.Injective) {entry : Ident}
    {t' : SymbolTable} (h : t.declare .global (.label entry) = .ok t') :
    (t.rename ρ).declare .global (.label (ρ.routine entry))
      = .ok (t'.rename ρ) := by
  obtain ⟨hnew, rfl⟩ := declare_global_eq_ok h
  have hfind := find?_global_rename (t := t) hρ entry
  rw [show t.global.find? entry = none from hnew] at hfind
  exact bind_eq_ok.mpr ⟨_, Scope.declare_of_find?_eq_none hfind, rfl⟩

end SymbolTable

/-! ## Requests -/

namespace SymbolTable

variable {t : SymbolTable} {id : ScopeId}

/-- **A renamed table gives the answer under its new name.** -/
theorem answer_rename (hρ : ρ.IsFaithful) (hid : id ≠ .global) (body : Ident)
    (r : Request) :
    r.answer id (t.rename ρ) = (r.rename (ρ.inBody body) (r.answer id t).1,
      (r.answer id t).2.rename ρ) := by
  cases r with
  | temporary ty =>
    have hname := (hρ.inBody body).temporary _ (beginsWith_temporary t.counter)
    refine (freshTemporary_rename hρ hid ty).trans (congrArg (·, _) ?_)
    exact hname.symm
  | label hint =>
    have hname := (hρ.inBody body).label _ (Ident.beginsWith_point hint
      (Decimal.ofNat t.counter))
    refine (freshLabel_rename hρ hid hint).trans (congrArg (·, _) ?_)
    exact hname.symm
  | constant text => exact intern_rename hρ text

/-- **A table and the renamed one answer alike**, and the renamed one goes on
to be so. -/
theorem serve_rename (hρ : ρ.IsFaithful) (hid : id ≠ .global) (body : Ident)
    (rs : List Request) :
    AnswerAlike (ρ.inBody body) id id rs t (t.rename ρ)
      ∧ (t.rename ρ).serve id rs = (t.serve id rs).rename ρ := by
  induction rs generalizing t with
  | nil => exact ⟨trivial, rfl⟩
  | cons r rs ih =>
    obtain ⟨halike, hserve⟩ := @ih (r.answer id t).2
    have hanswer := answer_rename (t := t) hρ hid body r
    refine ⟨⟨congrArg Prod.fst hanswer, ?_⟩, ?_⟩
    · rw [hanswer]
      exact halike
    · rw [serve, hanswer]
      exact hserve

end SymbolTable

/-- **What mirrors an emission does so over the renamed table**, and it comes
to the renamed table. -/
theorem Emit.Mirrors.run_rename {β γ : Type} {id : ScopeId}
    {rs : List Request} {f : β → γ} {x : Emit β} {y : Emit γ} {body : Ident}
    (h : Emit.Mirrors (ρ.inBody body) id id rs f x y) (hρ : ρ.IsFaithful)
    (hid : id ≠ .global) (t : SymbolTable) :
    y.run (t.rename ρ) = (f (x.run t).1, (x.run t).2.rename ρ) := by
  obtain ⟨halike, hserve⟩ := serve_rename (t := t) hρ hid body rs
  obtain ⟨ht, hu, hresult⟩ := h t (t.rename ρ) halike
  refine Prod.ext hresult ?_
  rw [hu, hserve, ht]

/-! ## Conversions -/

namespace Expr

mutual

/-- A renamed expression has the same conversions. -/
theorem unconvertible?_rename (e : Expr Judged) :
    (e.rename ν).unconvertible? = e.unconvertible? := by
  match e with
  | .lit _ _ | .var _ _ => rfl
  | .binary _ _ lhs rhs =>
    rw [rename, unconvertible?, unconvertible?_rename lhs,
      unconvertible?_rename rhs, unconvertible?]
  | .not _ operand | .input _ operand =>
    rw [rename, unconvertible?, unconvertible?_rename operand,
      unconvertible?]
  | .convert _ _ operand =>
    rw [rename, unconvertible?, unconvertible?_rename operand, ty_rename,
      unconvertible?]
  | .call _ _ args =>
    rw [rename, unconvertible?, anyUnconvertible?_rename args,
      unconvertible?]

/-- Renamed expressions have the same conversions. -/
theorem anyUnconvertible?_rename (es : List (Expr Judged)) :
    anyUnconvertible? (renameAll ν es) = anyUnconvertible? es := by
  match es with
  | [] => rfl
  | e :: es =>
    rw [renameAll, anyUnconvertible?, unconvertible?_rename e,
      anyUnconvertible?_rename es, anyUnconvertible?]

end

end Expr

namespace Stmt

mutual

/-- A renamed statement has the same conversions. -/
theorem unconvertible?_rename (stmt : Stmt Judged) :
    (stmt.rename ν).unconvertible? = stmt.unconvertible? := by
  match stmt with
  | .introduce _ _ _ value | .assign _ _ value | .update _ _ _ value
  | .ret _ value => exact value.unconvertible?_rename
  | .pass _ | .retUnit _ => rfl
  | .print _ args | .call _ _ args =>
    exact Expr.anyUnconvertible?_rename args
  | .ifElse _ cond ⟨thenStmts, _⟩ ⟨elseStmts, _⟩ =>
    rw [rename, unconvertible?, cond.unconvertible?_rename,
      anyUnconvertible?_rename thenStmts, anyUnconvertible?_rename elseStmts,
      unconvertible?]
  | .whileLoop _ cond ⟨bodyStmts, _⟩ =>
    rw [rename, unconvertible?, cond.unconvertible?_rename,
      anyUnconvertible?_rename bodyStmts, unconvertible?]

/-- Renamed statements have the same conversions. -/
theorem anyUnconvertible?_rename (stmts : List (Stmt Judged)) :
    anyUnconvertible? (renameAll ν stmts) = anyUnconvertible? stmts := by
  match stmts with
  | [] => rfl
  | stmt :: stmts =>
    rw [renameAll, anyUnconvertible?, unconvertible?_rename stmt,
      anyUnconvertible?_rename stmts, anyUnconvertible?]

end

end Stmt

/-! ## Programs -/

/-- **The routine of a renamed body is the renamed routine.** -/
theorem emitRoutine_rename (hρ : ρ.IsFaithful) {constants : Constants}
    {t t' : SymbolTable} {name : Ident} {params : List (Slot × Ty)} {ret : Ty}
    {body : Block (Stmt Judged)} {r : Routine}
    (h : emitRoutine constants t name params ret body = .ok (r, t')) :
    emitRoutine (constants.rename (ρ.inBody name)) (t.rename ρ)
      (ρ.routine name) ((ρ.inBody name).params params) ret
      (body.rename (ρ.inBody name)) = .ok (r.rename ρ, t'.rename ρ) := by
  unfold emitRoutine at h ⊢
  rw [scopeOf?_rename hρ.routine_injective]
  split at h
  · cases h
  · next scope hscope =>
    split at h
    · cases h
    · next t₁ hdeclare =>
      rw [declare_rename hρ.routine_injective hdeclare]
      simp only [Block.rename, Stmt.anyUnconvertible?_rename]
      split at h
      · cases h
      · have hbody := @mirrors_emitBody (ρ.inBody name) scope scope constants
          name body.stmts
        have hrun := hbody.run_rename hρ (ne_global_of_scopeOf? hscope) t₁
        rw [show ρ.routine name = (ρ.inBody name).routine name from rfl, hrun]
        cases h
        rfl

/-- The routines of renamed definitions are the renamed routines. -/
theorem emitDefinitions_rename (hρ : ρ.IsFaithful) {constants : Constants}
    {t t' : SymbolTable} {ds : List (Definition Judged)} {rs : List Routine}
    (h : emitDefinitions constants t ds = .ok (rs, t')) (body : Ident) :
    emitDefinitions (constants.rename (ρ.inBody body)) (t.rename ρ)
        (ds.map (·.rename ρ))
      = .ok (rs.map (·.rename ρ), t'.rename ρ) := by
  induction ds generalizing t rs with
  | nil =>
    cases h
    rfl
  | cons d ds ih =>
    obtain ⟨⟨r, t₁⟩, hd, h⟩ := bind_eq_ok.mp h
    obtain ⟨⟨rs', t₂⟩, hds, h⟩ := bind_eq_ok.mp h
    cases pure_eq_ok.mp h
    exact bind_eq_ok.mpr ⟨_, emitRoutine_rename hρ hd, bind_eq_ok.mpr
      ⟨_, ih hds, rfl⟩⟩

/-- **The code for a renamed program is the renamed code**, with the renamed
symbol table. -/
theorem TypedProgram.emit_rename (hρ : ρ.IsFaithful) {typed : TypedProgram}
    {a : Assembly} (h : typed.emit = .ok a) :
    (typed.rename ρ).emit = .ok (a.rename ρ) := by
  have hmirrors := Emit.mirrors_constants (ρ.inBody Program.entryPoint)
    (.nested 0) (.nested 0)
  have hconstants := hmirrors.run_rename hρ ScopeId.noConfusion typed.symbols
  unfold emit at h ⊢
  rw [show (typed.rename ρ).symbols = typed.symbols.rename ρ from rfl,
    hconstants]
  obtain ⟨⟨rs, t₁⟩, hdefinitions, h⟩ := bind_eq_ok.mp h
  obtain ⟨⟨main, t₂⟩, hmain, h⟩ := bind_eq_ok.mp h
  cases pure_eq_ok.mp h
  have hmain := emitRoutine_rename hρ hmain
  rw [hρ.entryPoint] at hmain
  exact bind_eq_ok.mpr ⟨_, emitDefinitions_rename hρ hdefinitions _,
    bind_eq_ok.mpr ⟨_, hmain, rfl⟩⟩

/-- **Compiling commutes with renaming**: a renamed program is compiled to
what the program is compiled to, renamed. -/
theorem Program.compile_rename (hρ : ρ.IsFaithful) {p : Program Span}
    {a : Assembly} (h : p.compile = .ok a) :
    (p.rename ρ).compile = .ok (a.rename ρ) := by
  obtain ⟨typed, hcheck, hemit⟩ := compile_eq_ok.mp h
  exact compile_eq_ok.mpr ⟨_, check_rename hρ hcheck,
    TypedProgram.emit_rename hρ hemit⟩

end Primer
