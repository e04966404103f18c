import Primer.Proofs.Typing.Annotations

/-!
# What the table of a program has

The symbol table is filled in two passes. Checking opens one scope for each
body, in order, and puts in it the parameters and then the variables that the
body introduces, in the order of the text (`Definition.layout`). Emission opens
no scope. To the scopes of the bodies it adds temporaries and labels that it
makes up, and to the global scope texts and the entries of the routines; and
it only ever adds at the end (`SymbolTable.Appends`), so that every symbol
stays where it is.

Both are told by the tables alone: a relation between the table before and the
table after that is kept by going on.
-/

namespace Primer

open SymbolTable Text

/-! ## Scopes of bodies -/

namespace Stmt

/-- The symbols of variables. -/
def symbolsOf (locals : List (Ident × Ty)) : List Symbol :=
  locals.map fun b => .introduced b.1 b.2

/-- A scope with the symbols of variables at its end. -/
def Extends (scope scope' : Scope) (locals : List (Ident × Ty)) : Prop :=
  scope'.owner = scope.owner
    ∧ scope'.symbols = scope.symbols ++ symbolsOf locals

namespace Extends

variable {scope scope' scope'' : Scope} {locals others : List (Ident × Ty)}

theorem refl (scope : Scope) : Extends scope scope [] :=
  ⟨rfl, (List.append_nil _).symm⟩

theorem trans (h : Extends scope scope' locals)
    (h' : Extends scope' scope'' others) :
    Extends scope scope'' (locals ++ others) := by
  refine ⟨h'.1.trans h.1, ?_⟩
  rw [h'.2, h.2, symbolsOf, symbolsOf, symbolsOf, List.map_append,
    List.append_assoc]

/-- One variable. -/
theorem bind {name : Ident} {ty : Ty} {span : Span}
    (h : Stmt.bind scope name ty span = .ok scope') :
    Extends scope scope' [(name, ty)] := by
  unfold Stmt.bind at h
  split at h
  · next hdeclare =>
    cases h
    obtain ⟨-, rfl⟩ := Scope.declare_eq_ok hdeclare
    exact ⟨rfl, Scope.symbols_push _ _⟩
  · cases h

end Extends

variable {sigs : Signatures} {expected : Expected}

mutual

/-- **Checking a statement adds the variables that it introduces** to the
scope, and nothing else. -/
theorem check_extends {scope : Scope} {stmt : Stmt Span}
    {c : Checked (Stmt Judged)} (h : stmt.check sigs expected scope = .ok c) :
    Extends scope c.scope stmt.locals := by
  -- a step of the check that gives no scope is passed over
  match stmt with
  | .introduce _ _ _ _ =>
    obtain ⟨_, -, h⟩ := bind_eq_ok.mp h
    obtain ⟨_, -, h⟩ := bind_eq_ok.mp h
    obtain ⟨_, hbind, h⟩ := bind_eq_ok.mp h
    cases pure_eq_ok.mp h
    exact .bind hbind
  | .assign _ _ _ =>
    obtain ⟨_, -, h⟩ := bind_eq_ok.mp h
    obtain ⟨_, -, h⟩ := bind_eq_ok.mp h
    obtain ⟨_, -, h⟩ := bind_eq_ok.mp h
    cases pure_eq_ok.mp h
    exact .refl scope
  | .update _ _ _ _ =>
    obtain ⟨_, -, h⟩ := bind_eq_ok.mp h
    obtain ⟨_, -, h⟩ := bind_eq_ok.mp h
    obtain ⟨_, -, h⟩ := bind_eq_ok.mp h
    obtain ⟨_, -, h⟩ := bind_eq_ok.mp h
    cases pure_eq_ok.mp h
    exact .refl scope
  | .pass _ =>
    cases pure_eq_ok.mp h
    exact .refl scope
  | .print _ _ =>
    obtain ⟨_, -, h⟩ := bind_eq_ok.mp h
    cases pure_eq_ok.mp h
    exact .refl scope
  | .ret _ _ =>
    cases expected with
    | none => cases h
    | some _ =>
      obtain ⟨_, -, h⟩ := bind_eq_ok.mp h
      obtain ⟨_, -, h⟩ := bind_eq_ok.mp h
      cases pure_eq_ok.mp h
      exact .refl scope
  | .retUnit _ =>
    cases expected with
    | none => cases h
    | some _ =>
      obtain ⟨_, -, h⟩ := bind_eq_ok.mp h
      cases pure_eq_ok.mp h
      exact .refl scope
  | .call _ _ _ =>
    obtain ⟨_, -, h⟩ := bind_eq_ok.mp h
    obtain ⟨_, -, h⟩ := bind_eq_ok.mp h
    obtain ⟨_, -, h⟩ := bind_eq_ok.mp h
    cases pure_eq_ok.mp h
    exact .refl scope
  | .ifElse _ _ ⟨_, _⟩ ⟨_, _⟩ =>
    obtain ⟨_, -, h⟩ := bind_eq_ok.mp h
    obtain ⟨_, hthen, h⟩ := bind_eq_ok.mp h
    obtain ⟨_, helse, h⟩ := bind_eq_ok.mp h
    obtain ⟨_, -, h⟩ := bind_eq_ok.mp h
    cases pure_eq_ok.mp h
    exact (checkAll_extends hthen).trans (checkAll_extends helse)
  | .whileLoop _ _ ⟨_, _⟩ =>
    obtain ⟨_, -, h⟩ := bind_eq_ok.mp h
    obtain ⟨_, hbody, h⟩ := bind_eq_ok.mp h
    cases pure_eq_ok.mp h
    exact checkAll_extends hbody

/-- Checking statements adds the variables that they introduce to the scope.
-/
theorem checkAll_extends {scope : Scope} {before : Returns}
    {stmts : List (Stmt Span)} {c : Checked (List (Stmt Judged))}
    (h : checkAll sigs expected scope before stmts = .ok c) :
    Extends scope c.scope (localsAll stmts) := by
  match stmts with
  | [] =>
    cases pure_eq_ok.mp h
    exact .refl scope
  | stmt :: stmts =>
    obtain ⟨_, hfirst, h⟩ := bind_eq_ok.mp h
    obtain ⟨_, -, h⟩ := bind_eq_ok.mp h
    obtain ⟨_, hrest, h⟩ := bind_eq_ok.mp h
    cases pure_eq_ok.mp h
    have hothers := checkAll_extends hrest
    exact (check_extends hfirst).trans hothers

end

end Stmt

namespace Definition

variable {α : Type} {sigs : Signatures}

/-- **The symbols of a body**: its parameters in order, then the variables
that it introduces in the order of the text. -/
def layout (d : Definition α) : List Symbol :=
  (d.params.map fun b => .formal b.1 b.2)
    ++ Stmt.symbolsOf (Stmt.localsAll d.body.stmts)

/-- Binding parameters adds them to the scope. -/
theorem symbols_bindParams {scope scope' : Scope} {span : Span}
    {params : List (Ident × Ty)}
    (h : bindParams scope span params = .ok scope') :
    scope'.owner = scope.owner ∧ scope'.symbols
      = scope.symbols ++ params.map fun b => .formal b.1 b.2 := by
  induction params generalizing scope with
  | nil =>
    cases h
    exact ⟨rfl, (List.append_nil _).symm⟩
  | cons param params ih =>
    unfold bindParams at h
    split at h
    · next hdeclare =>
      obtain ⟨-, rfl⟩ := Scope.declare_eq_ok hdeclare
      obtain ⟨howner, hsymbols⟩ := ih h
      refine ⟨howner, ?_⟩
      rw [hsymbols, Scope.symbols_push, List.append_assoc]
      rfl
    · cases h

/-- **Checking a definition lays out its scope.** -/
theorem layout_of_check {d : Definition Span}
    {c : Definition Judged × Scope} (h : d.check sigs = .ok c) :
    c.2.owner = d.name ∧ c.2.symbols = d.layout := by
  obtain ⟨_, hparams, h⟩ := bind_eq_ok.mp h
  obtain ⟨_, hbody, h⟩ := bind_eq_ok.mp h
  obtain ⟨_, -, h⟩ := bind_eq_ok.mp h
  cases pure_eq_ok.mp h
  obtain ⟨_, hchecked, hbody⟩ := bind_eq_ok.mp hbody
  cases pure_eq_ok.mp hbody
  obtain ⟨howner, hformals⟩ := symbols_bindParams hparams
  obtain ⟨howner', hlocals⟩ := Stmt.checkAll_extends hchecked
  exact ⟨howner'.trans howner, by rw [hlocals, hformals]; rfl⟩

/-- Checking definitions lays out their scopes, in order. -/
theorem layout_of_checkAll {ds : List (Definition Span)}
    {cs : List (Definition Judged × Scope)} (h : checkAll sigs ds = .ok cs) :
    (cs.map Prod.snd).map (fun s => (s.owner, s.symbols))
      = ds.map fun d => (d.name, d.layout) := by
  induction ds generalizing cs with
  | nil =>
    cases pure_eq_ok.mp h
    rfl
  | cons d ds ih =>
    obtain ⟨_, hd, h⟩ := bind_eq_ok.mp h
    obtain ⟨_, hds, h⟩ := bind_eq_ok.mp h
    cases pure_eq_ok.mp h
    obtain ⟨howner, hsymbols⟩ := layout_of_check hd
    rw [List.map_cons, List.map_cons, List.map_cons, ih hds, howner, hsymbols]

end Definition

/-- **Checking a program lays out the scopes of its bodies**, in order, and
leaves the global one empty. -/
theorem Program.layout_of_check {p : Program Span} {typed : TypedProgram}
    (h : p.check = .ok typed) :
    typed.symbols.nested.map (fun s => (s.owner, s.symbols))
      = p.bodies.map fun d => (d.name, d.layout) := by
  obtain ⟨_, -, h⟩ := bind_eq_ok.mp h
  obtain ⟨_, hdefinitions, h⟩ := bind_eq_ok.mp h
  obtain ⟨_, hmain, h⟩ := bind_eq_ok.mp h
  cases pure_eq_ok.mp h
  obtain ⟨_, hchecked, hmain⟩ := bind_eq_ok.mp hmain
  cases pure_eq_ok.mp hmain
  obtain ⟨howner, hsymbols⟩ := Stmt.checkAll_extends hchecked
  rw [bodies, List.map_append, List.map_append,
    Definition.layout_of_checkAll hdefinitions, List.map_singleton,
    List.map_singleton, howner, hsymbols]
  rfl

/-- The scope of an owner is found by its place, if no two scopes have one
owner. -/
theorem SymbolTable.scopeOf?_eq_some_of_nodup {t : SymbolTable}
    (hnodup : (t.nested.map Scope.owner).Nodup) {i : Nat} {owner : String}
    (h : (t.nested.map Scope.owner)[i]? = some owner) :
    t.scopeOf? owner = some (.nested i) := by
  cases hlast : lastOwned? owner t.nested with
  | none => exact absurd (List.mem_of_getElem? h) (lastOwned?_eq_none.mp hlast)
  | some j =>
    obtain ⟨s, hs, rfl⟩ := lastOwned?_eq_some hlast
    have hj : (t.nested.map Scope.owner)[j]? = some s.owner := by
      rw [List.getElem?_map, hs]
      rfl
    have hlt := (List.getElem?_eq_some_iff.mp hj).1
    rw [scopeOf?, hlast,
      (List.getElem?_inj hlt hnodup).mp (hj.trans h.symm)]
    rfl

/-! ## What emission adds -/

/-- **A symbol that emission adds to the scope of a body**: a temporary or a
label, made up from a number. -/
def Symbol.IsMadeUp (s : Symbol) : Prop :=
  (∃ n ty, s = .temporary ("%t" ++ Decimal.ofNat n) ty)
    ∨ ∃ hint n, s = .label ("." ++ hint ++ Decimal.ofNat n)

/-- **A symbol that emission adds to the global scope**: a text or an entry.
-/
def Symbol.IsGlobal (s : Symbol) : Prop :=
  (∃ n text, s = .constant (".str" ++ Decimal.ofNat n) text)
    ∨ s.kind = .label

namespace SymbolTable

/-- **A table to whose scopes symbols are added at the end**: temporaries and
labels to those of the bodies, texts and these entries to the global one. -/
structure Appends (entries : List Ident) (t t' : SymbolTable) : Prop where
  /-- The nested scopes are the same, with the same owners. -/
  owners : t'.nested.map Scope.owner = t.nested.map Scope.owner
  /-- What is added to a nested scope is made up. -/
  nested : ∀ i, ∃ added, (t'.scope (.nested i)).symbols
    = (t.scope (.nested i)).symbols ++ added ∧ ∀ s ∈ added, s.IsMadeUp
  /-- What is added to the global scope is texts and, in this order, the
  entries. -/
  global : ∃ added, t'.global.symbols = t.global.symbols ++ added
    ∧ (∀ s ∈ added, s.IsGlobal)
    ∧ added.filter (·.kind == .label) = entries.map .label

namespace Appends

variable {t t' t'' : SymbolTable} {entries others : List Ident}

theorem refl (t : SymbolTable) : Appends [] t t where
  owners := rfl
  nested _ := ⟨[], (List.append_nil _).symm, nofun⟩
  global := ⟨[], (List.append_nil _).symm, nofun, rfl⟩

/-- Something is added, and then more. -/
theorem trans (h : Appends entries t t') (h' : Appends others t' t'') :
    Appends (entries ++ others) t t'' where
  owners := h'.owners.trans h.owners
  nested i := by
    obtain ⟨added, hadded, hmade⟩ := h.nested i
    obtain ⟨more, hmore, hmade'⟩ := h'.nested i
    exact ⟨added ++ more, by rw [hmore, hadded, List.append_assoc],
      List.forall_mem_append.mpr ⟨hmade, hmade'⟩⟩
  global := by
    obtain ⟨added, hadded, hglobal, hentries⟩ := h.global
    obtain ⟨more, hmore, hglobal', hothers⟩ := h'.global
    exact ⟨added ++ more, by rw [hmore, hadded, List.append_assoc],
      List.forall_mem_append.mpr ⟨hglobal, hglobal'⟩,
      by rw [List.filter_append, hentries, hothers, List.map_append]⟩

/-- A made-up symbol is added to a nested scope. -/
theorem madeUp (t : SymbolTable) (i : Nat) {s : Symbol} (h : s.IsMadeUp) :
    Appends [] t (t.modify (.nested i) (·.push s)) where
  owners := map_owner_modify t _ fun _ => rfl
  nested j := by
    by_cases hij : i = j
    · subst hij
      cases hscope : t.nested[i]? with
      | none =>
        refine ⟨[], ?_, nofun⟩
        simp [modify, SymbolTable.scope, hscope]
      | some scope =>
        refine ⟨[s], ?_, List.forall_mem_singleton.mpr h⟩
        simp [modify, SymbolTable.scope, hscope]
    · have hne : ScopeId.nested i ≠ .nested j :=
        fun heq => hij (ScopeId.nested.inj heq)
      exact ⟨[], by rw [scope_modify_of_ne t hne, List.append_nil], nofun⟩
  global := ⟨[], (List.append_nil _).symm, nofun, rfl⟩

theorem text (t : SymbolTable) (n : Nat) (text : String) :
    Appends [] t (t.modify .global
      (·.push (.constant (".str" ++ Decimal.ofNat n) text))) where
  owners := rfl
  nested _ := ⟨[], (List.append_nil _).symm, nofun⟩
  global := ⟨[.constant _ text], Scope.symbols_push _ _,
    List.forall_mem_singleton.mpr (.inl ⟨n, text, rfl⟩), rfl⟩

theorem entry (t : SymbolTable) (name : Ident) :
    Appends [name] t (t.modify .global (·.push (.label name))) where
  owners := rfl
  nested _ := ⟨[], (List.append_nil _).symm, nofun⟩
  global := ⟨[.label name], Scope.symbols_push _ _,
    List.forall_mem_singleton.mpr (.inr rfl), rfl⟩

theorem count (h : Appends entries { t with counter := t.counter + 1 } t') :
    Appends entries t t' :=
  ⟨h.owners, fun i => h.nested i, h.global⟩

end Appends

/-- **Growth of the scope of a body** adds no entry. -/
theorem Grows.appends {t t' : SymbolTable} {id : ScopeId}
    (h : Grows id t t') (hid : id ≠ .global) : Appends [] t t' := by
  induction h with
  | refl => exact .refl t
  | @step t' stem id' symbol _ ha ih =>
    refine ih.trans (.count ?_)
    cases ha with
    | constant text => exact .text _ _ text
    | temporary ty => cases id with
      | global => exact absurd rfl hid
      | nested i => exact .madeUp _ i (.inl ⟨_, ty, rfl⟩)
    | @label hint _ => cases id with
      | global => exact absurd rfl hid
      | nested i => exact .madeUp _ i (.inr ⟨hint, _, rfl⟩)

end SymbolTable

/-- **A routine adds its entry.** -/
theorem Routine.Emits.appends {constants : Constants} {name : Ident}
    {params : List (Slot × Ty)} {ret : Ty} {body : List (Stmt Judged)}
    {t t' : SymbolTable} {r : Routine}
    (h : Routine.Emits constants name params ret body t r t') :
    Appends [name] t t' :=
  (Appends.entry t name).trans
    (h.takes.grows.appends (ne_global_of_scopeOf? h.scopeOf?_eq))

/-- **Routines add their entries**, in order. -/
theorem Definition.EmitsAll.appends {constants : Constants}
    {ds : List (Definition Judged)} {t t' : SymbolTable} {rs : List Routine}
    (h : Definition.EmitsAll constants ds t rs t') :
    Appends (ds.map Definition.name) t t' := by
  induction h with
  | nil => exact .refl _
  | cons hd _ ih => exact hd.appends.trans ih

/-- The scope of a routine is the one that was opened for its name. -/
theorem Definition.EmitsAll.scopeOf?_eq {constants : Constants}
    {ds : List (Definition Judged)} {t t' : SymbolTable} {rs : List Routine}
    (h : Definition.EmitsAll constants ds t rs t') :
    ∀ r ∈ rs, t.scopeOf? r.name = some r.prototype.scope := by
  induction h with
  | nil => exact nofun
  | cons hd _ ih =>
    refine List.forall_mem_cons.mpr ⟨hd.name_eq.symm ▸ hd.scopeOf?_eq, ?_⟩
    intro r hr
    rw [← hd.scopeOf?_after]
    exact ih r hr

/-! ## Both passes -/

theorem TypedProgram.IsCheckOf.map_name_bodies_eq {typed : TypedProgram}
    {p : Program Span} (h : typed.IsCheckOf p) :
    typed.program.bodies.map Definition.name
      = p.bodies.map Definition.name := by
  rw [h.map_name_bodies, Program.bodies, List.map_append]
  rfl

/-- **What the table of a program has.** After the check there is the global
scope, which is empty, and inside of it one scope for each body, the main
script last, which is found under the name of the body and has the parameters
in order and then the introduced variables in the order of the text. Emission
opens no scope and adds at the end only: temporaries and labels that it makes
up to the scopes of the bodies, texts to the global scope and, in order, one
entry for each body. The scope of each routine is that of its body. -/
theorem Program.table_contents {p : Program Span} {typed : TypedProgram}
    (h : p.check = .ok typed) :
    (typed.symbols.global = .empty "<global>"
      ∧ typed.symbols.nested.map (fun s => (s.owner, s.symbols))
        = p.bodies.map (fun d => (d.name, d.layout))
      ∧ ∀ (i : Nat) (d : Definition Span), p.bodies[i]? = some d →
        typed.symbols.scopeOf? d.name = some (.nested i)
          ∧ (ScopeId.nested i).parent? = some .global)
    ∧ ∀ a, typed.emit = .ok a →
      Appends (p.bodies.map Definition.name) typed.symbols a.symbols
      ∧ ∀ (i : Nat) (r : Routine), a.bodies[i]? = some r →
        r.prototype.scope = .nested i := by
  have hsound := check_sound h
  have hlayout := layout_of_check h
  have howners : typed.symbols.nested.map Scope.owner
      = p.bodies.map Definition.name := by
    have := congrArg (List.map Prod.fst) hlayout
    rwa [List.map_map, List.map_map] at this
  have hnodup : (typed.symbols.nested.map Scope.owner).Nodup := by
    rw [howners, ← hsound.map_name_bodies_eq]
    exact hsound.wellTyped.nodup_bodies
  have hfound : ∀ (i : Nat) (name : Ident),
      (p.bodies.map Definition.name)[i]? = some name →
      typed.symbols.scopeOf? name = some (.nested i) := fun i name hname =>
    scopeOf?_eq_some_of_nodup hnodup (howners ▸ hname)
  refine ⟨⟨hsound.global, hlayout, fun i d hd => ⟨hfound i d.name ?_, rfl⟩⟩,
    fun a hemit => ?_⟩
  · rw [List.getElem?_map, hd]
    rfl
  cases TypedProgram.emits_of_emit hemit with
  | mk hconstants hbodies =>
    have hgrows := hconstants.grows (.nested 0)
    constructor
    · rw [← hsound.map_name_bodies_eq]
      exact (hgrows.appends nofun).trans hbodies.appends
    · intro i r hr
      have hname : (p.bodies.map Definition.name)[i]? = some r.name := by
        rw [← hsound.map_name_bodies_eq, ← hbodies.names_eq,
          List.getElem?_map, hr]
        rfl
      have hscope := hbodies.scopeOf?_eq r (List.mem_of_getElem? hr)
      rw [hgrows.scopeOf?, hfound i r.name hname] at hscope
      exact (Option.some.inj hscope).symm

/-- What the table of the doubling program has. -/
theorem Program.table_contents_doubling : ∃ typed a,
    doubling.check = .ok typed ∧ typed.emit = .ok a
    ∧ typed.symbols.nested.map (fun s => (s.owner, s.symbols))
      = doubling.bodies.map (fun d => (d.name, d.layout))
    ∧ Appends (doubling.bodies.map Definition.name) typed.symbols
      a.symbols := by
  obtain ⟨a, hcompile⟩ := exists_compile_doubling
  obtain ⟨typed, hcheck, hemit⟩ := compile_eq_ok.mp hcompile
  obtain ⟨⟨-, hlayout, -⟩, hadded⟩ := table_contents hcheck
  exact ⟨typed, a, hcheck, hemit, hlayout, (hadded a hemit).1⟩

/-- The layout of the bodies of the doubling program. -/
example : Program.doubling.bodies.map Definition.layout
    = [[.formal "n" .int], [.introduced "n" .int]] := by rfl

end Primer
