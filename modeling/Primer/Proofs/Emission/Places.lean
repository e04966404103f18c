import Mathlib.Data.List.Forall2
import Primer.Proofs.Emission.Routines

/-!
# Places and their symbols

Code names its places, and the table that is there at the end of all emission
has a symbol for each of them. That a name goes on to mean the symbol that it
once meant is not a matter of course, since made-up names are pushed and may
take the place of older symbols. But a name takes the place of none that was
there before if its number is new (`SymbolTable.Lasts`), and so the symbol of
a variable lasts, whose name has no number, and so does the symbol of a
temporary, whose number has been counted.

`Routine.EmittedFor` puts together what is known of an emitted routine: which
body it is for, where the code of the body stands in it, and that the symbols
of its scope last to the end.
-/

namespace Primer

namespace SymbolTable

variable {t t₁ t' : SymbolTable} {id id' : ScopeId}

/-- What a name means in a scope changes only if it is pushed there. -/
theorem find?_modify_push_of_ne {symbol : Symbol} {name : String}
    (hne : symbol.name ≠ name) :
    ((t.modify id' (·.push symbol)).scope id).find? name
      = (t.scope id).find? name := by
  by_cases hid : id' = id
  · subst hid
    by_cases hhas : t.Has id'
    · rw [scope_modify_self hhas, Scope.find?_push_of_ne _ hne]
    · cases id' with
      | global => exact absurd trivial hhas
      | nested i =>
        -- a scope that is not there has no symbols before and after
        have hi : t.nested.length ≤ i := Nat.le_of_not_lt hhas
        simp [modify, scope, hi]
  · rw [scope_modify_of_ne t hid]

/-- **The symbols of a scope last** from one table to another: a name goes on
to mean what it meant, unless it is made up from a number that was still to
come. -/
structure Lasts (id : ScopeId) (t t' : SymbolTable) : Prop where
  /-- Numbers are counted on. -/
  counter_le : t.counter ≤ t'.counter
  /-- What a name meant it goes on to mean. -/
  found : ∀ name s, (∀ hi, ¬ Made t.counter hi name) →
    (t.scope id).find? name = some s → (t'.scope id).find? name = some s

namespace Lasts

theorem refl (id : ScopeId) (t : SymbolTable) : Lasts id t t :=
  ⟨Nat.le_refl _, fun _ _ _ h => h⟩

theorem trans (h : Lasts id t t₁) (h' : Lasts id t₁ t') : Lasts id t t' where
  counter_le := Nat.le_trans h.counter_le h'.counter_le
  found name s hname hs := by
    refine h'.found name s (fun hi hmade => ?_) (h.found name s hname hs)
    exact hname hi (hmade.mono h.counter_le (Nat.le_refl hi))

theorem declare_global (hid : id ≠ .global) (symbol : Symbol) :
    Lasts id t (t.modify .global (·.push symbol)) where
  counter_le := Nat.le_refl _
  found name s _ hs := by
    rw [scope_modify_of_ne t hid.symm]
    exact hs

end Lasts

/-- **Symbols last while a table grows.** -/
theorem Grows.lasts (h : Grows id' t t') (id : ScopeId) : Lasts id t t' := by
  induction h with
  | refl => exact .refl id t
  | @step t' stem id'' symbol h ha ih =>
    refine ⟨?_, fun name s hname hs => ?_⟩
    · rw [counter_grown]
      exact Nat.le_succ_of_le ih.counter_le
    · -- the name is not the one that is made up now
      have hne : (symbol (stem ++ Text.Decimal.ofNat t'.counter)).name
          ≠ name := by
        rintro rfl
        rw [ha.name_eq] at hname
        exact hname _ ((Made.single ha.isStem t'.counter).mono
          ih.counter_le (Nat.le_refl _))
      rw [← ih.found name s hname hs]
      exact find?_modify_push_of_ne hne

/-- **A scope has a place** for values of a type, under a name. -/
def HasPlace (t : SymbolTable) (id : ScopeId) (slot : Slot) (ty : Ty) :
    Prop :=
  ∃ s, (t.scope id).find? slot = some s ∧ s.isStorage = true
    ∧ s.ty? = some ty

/-- A place has one type. -/
theorem HasPlace.unique {slot : Slot} {ty ty' : Ty}
    (h : t.HasPlace id slot ty) (h' : t.HasPlace id slot ty') : ty = ty' := by
  obtain ⟨s, hs, -, hty⟩ := h
  obtain ⟨s', hs', -, hty'⟩ := h'
  rw [hs] at hs'
  cases hs'
  exact Option.some.inj (hty.symm.trans hty')

/-- **A stretch of emission** in a scope, from one table to another whose
symbols last to the end. -/
structure Stretch (symbols : SymbolTable) (id : ScopeId)
    (t t' : SymbolTable) : Prop where
  /-- The scope is there. -/
  has : t.Has id
  /-- Its symbols last. -/
  lasts : Lasts id t' symbols

namespace Stretch

variable {symbols : SymbolTable} {ty : Ty} {temp : Slot}

/-- **A stretch consists of two.** -/
theorem halves (h : Stretch symbols id t t') (hfirst : Grows id t t₁)
    (hrest : Grows id t₁ t') :
    Stretch symbols id t t₁ ∧ Stretch symbols id t₁ t' :=
  ⟨⟨h.has, (hrest.lasts id).trans h.lasts⟩, hfirst.has h.has, h.lasts⟩

/-- **The symbol of a temporary lasts** from the table that has it on. -/
theorem temporary (h : Stretch symbols id t t')
    (htemp : t.freshTemporary id ty = (temp, t')) :
    (symbols.scope id).find? temp = some (.temporary temp ty) := by
  have hlasts := h.lasts
  rw [freshTemporary_eq] at htemp
  cases htemp
  refine hlasts.found _ _ (fun hi hmade => ?_) ?_
  · rw [counter_grown] at hmade
    exact Nat.lt_irrefl _
      ((Made.single stem_temporary t.counter).disjoint hmade)
  · rw [scope_grown_self h.has]
    exact Scope.find?_push_self (t.scope id) (.temporary _ ty)

theorem hasPlace (h : Stretch symbols id t t')
    (htemp : t.freshTemporary id ty = (temp, t')) :
    symbols.HasPlace id temp ty := ⟨_, h.temporary htemp, rfl, rfl⟩

/-- **Two operands** and the temporaries that take their values. -/
theorem operands {t₂ t₃ : SymbolTable} {left right : Slot} {ty' : Ty}
    (h : Stretch symbols id t t')
    (hleft : t.freshTemporary id ty = (left, t₁)) (hlhs : Grows id t₁ t₂)
    (hright : t₂.freshTemporary id ty' = (right, t₃))
    (hrhs : Grows id t₃ t') :
    (symbols.HasPlace id left ty ∧ Stretch symbols id t₁ t₂)
      ∧ symbols.HasPlace id right ty' ∧ Stretch symbols id t₃ t' := by
  have hl := Grows.temporary hleft
  have hr := Grows.temporary hright
  obtain ⟨h₁, h₂⟩ := h.halves (hl.trans hlhs) (hr.trans hrhs)
  obtain ⟨htemp, h₁⟩ := h₁.halves hl hlhs
  obtain ⟨htemp', h₂⟩ := h₂.halves hr hrhs
  exact ⟨⟨htemp.hasPlace hleft, h₁⟩, htemp'.hasPlace hright, h₂⟩

theorem withTemporary (h : Stretch symbols id t t')
    (htemp : t.freshTemporary id ty = (temp, t₁)) (hrest : Grows id t₁ t') :
    symbols.HasPlace id temp ty ∧ Stretch symbols id t₁ t' := by
  obtain ⟨hfirst, h⟩ := h.halves (Grows.temporary htemp) hrest
  exact ⟨hfirst.hasPlace htemp, h⟩

end Stretch

end SymbolTable

open SymbolTable

/-! ## Routines -/

/-- **A routine was emitted for a body**, over a table that grew into the one
of the program. -/
structure Routine.EmittedFor (r : Routine) (symbols : SymbolTable)
    (constants : Constants) (d : Definition Judged) : Prop where
  /-- The routine has the name of the body. -/
  name : r.name = d.name
  /-- Its parameters are those of the body. -/
  params : r.prototype.params = d.params
  /-- Its result has the type that is declared. -/
  ret : r.prototype.ret = d.ret
  /-- Its scope is that of the body. -/
  scope : symbols.scopeOf? d.name = some r.prototype.scope
  /-- The code of the statements stands between the entry and the exit, and
  the symbols that they were emitted with last. -/
  body : ∃ site code t t', site.scope = r.prototype.scope
    ∧ site.constants = constants
    ∧ r.code = .label r.name :: .enter :: code ++ [.label site.exit, .leave]
    ∧ Stmt.EmitsAll site d.body.stmts t code t'
    ∧ Stretch symbols site.scope t t'

theorem Routine.Emits.lasts {constants : Constants} {name : Ident}
    {params : List (Slot × Ty)} {ret : Ty} {body : List (Stmt Judged)}
    {t t' : SymbolTable} {r : Routine}
    (h : Routine.Emits constants name params ret body t r t') {id : ScopeId}
    (hid : id ≠ .global) : Lasts id t t' :=
  (Lasts.declare_global hid _).trans (h.takes.grows.lasts id)

/-- A routine is emitted for its body. -/
theorem Definition.Emits.emittedFor {constants : Constants}
    {d : Definition Judged} {t t' symbols : SymbolTable} {r : Routine}
    (h : d.Emits constants t r t')
    (hafter : Lasts r.prototype.scope t' symbols)
    (hscopes : symbols.scopeOf? d.name = t'.scopeOf? d.name) :
    r.EmittedFor symbols constants d := by
  have hbody := h.isBody
  have hscope := hscopes.trans ((h.scopeOf?_after d.name).trans h.scopeOf?_eq)
  cases h with
  | @mk _ t₁ _ scope exit code _ hentry hexit hcode =>
    obtain ⟨-, rfl⟩ := declare_global_eq_ok hentry
    have hhas := (Takes.label (by simp) hexit).grows.has hbody.1
    exact ⟨rfl, rfl, rfl, hscope, ⟨scope, exit, constants⟩, code, t₁, t', rfl,
      rfl, rfl, hcode, hhas, hafter⟩

namespace Definition.EmitsAll

variable {constants : Constants} {ds : List (Definition Judged)}
  {t t' symbols : SymbolTable} {rs : List Routine}

theorem lasts (h : EmitsAll constants ds t rs t') {id : ScopeId}
    (hid : id ≠ .global) : Lasts id t t' := by
  induction h with
  | nil => exact .refl id _
  | cons hd _ ih => exact (Routine.Emits.lasts hd hid).trans ih

theorem scopeOf?_after (h : EmitsAll constants ds t rs t') (owner : String) :
    t'.scopeOf? owner = t.scopeOf? owner := by
  induction h with
  | nil => rfl
  | cons hd _ ih => exact ih.trans (hd.scopeOf?_after owner)

/-- **Routines are emitted for their bodies**, one each, in order. -/
theorem emittedFor (h : EmitsAll constants ds t rs t') :
    List.Forall₂ (fun d r => r.EmittedFor t' constants d) ds rs := by
  induction h with
  | nil => exact .nil
  | cons hd hds ih =>
    refine .cons (Definition.Emits.emittedFor hd (hds.lasts ?_)
      (hds.scopeOf?_after _)) ih
    exact ne_global_of_scopeOf? hd.scopeOf?_eq

/-- Every routine is emitted for one of the bodies. -/
theorem exists_emittedFor (h : EmitsAll constants ds t rs t') {r : Routine}
    (hr : r ∈ rs) : ∃ d ∈ ds, r.EmittedFor t' constants d := by
  have hall := h.emittedFor
  clear h
  induction hall with
  | nil => cases hr
  | cons hd _ ih =>
    rcases List.mem_cons.mp hr with heq | hr
    · exact ⟨_, List.mem_cons_self .., heq ▸ hd⟩
    · obtain ⟨d, hmem, hfor⟩ := ih hr
      exact ⟨d, List.mem_cons_of_mem _ hmem, hfor⟩

end Definition.EmitsAll

namespace TypedProgram.Emits

variable {typed : TypedProgram} {a : Assembly}

theorem lasts (h : typed.Emits a) {id : ScopeId} (hid : id ≠ .global) :
    Lasts id typed.symbols a.symbols := by
  cases h with
  | mk hconstants hbodies =>
    exact ((hconstants.grows id).lasts id).trans (hbodies.lasts hid)

theorem scopeOf?_after (h : typed.Emits a) (owner : String) :
    a.symbols.scopeOf? owner = typed.symbols.scopeOf? owner := by
  cases h with
  | mk hconstants hbodies =>
    rw [hbodies.scopeOf?_after, (hconstants.grows .global).scopeOf?]

/-- **The routines of a program are emitted for its bodies**, one each, in
order. -/
theorem emittedFor_bodies (h : typed.Emits a) :
    ∃ constants, List.Forall₂ (fun d r => r.EmittedFor a.symbols constants d)
      typed.program.bodies a.bodies := by
  cases h with
  | mk _ hbodies => exact ⟨_, hbodies.emittedFor⟩

/-- The routines that can be called are emitted for the definitions, and the
main routine for the main script. -/
theorem emittedFor (h : typed.Emits a) :
    ∃ constants, List.Forall₂ (fun d r => r.EmittedFor a.symbols constants d)
        typed.program.definitions a.routines
      ∧ a.main.EmittedFor a.symbols constants typed.program.script := by
  obtain ⟨constants, hall⟩ := h.emittedFor_bodies
  rw [Program.bodies, Assembly.bodies, ← List.forall₂_reverse_iff,
    List.reverse_append, List.reverse_append] at hall
  cases hall with
  | cons hmain hdefinitions =>
    exact ⟨constants, List.forall₂_reverse_iff.mp hdefinitions, hmain⟩

theorem exists_emittedFor (h : typed.Emits a) {r : Routine}
    (hr : r ∈ a.bodies) : ∃ constants, ∃ d ∈ typed.program.bodies,
      r.EmittedFor a.symbols constants d := by
  cases h with
  | mk _ hbodies => exact ⟨_, hbodies.exists_emittedFor hr⟩

end TypedProgram.Emits

end Primer
