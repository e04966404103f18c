import Primer.Proofs.Emission.Labels
import Primer.Proofs.Emission.Requests
import Primer.Proofs.Histories.Texts

/-!
# Tables that make code alike

Emission looks at two things in a symbol table: the counter, for the names
that it makes up, and the texts that have names. What else is in the scopes
has no influence on the code, nor has the scope that the new names go to. So
two tables that agree in the two things are as good as one
(`Expr.emit_alike`), and they go on to agree, even if the labels that were
taken from them have different hints (`SymbolTable.Alike.label`).

It follows that the labels of a piece of code can be told to be new without
asking what scope they were taken for (`Expr.made_of_mem_labels`).
-/

namespace Primer

open SymbolTable Text

namespace SymbolTable

/-- **Two tables make code alike**: they count from the same number on, and
the same texts have the same names. -/
structure Alike (t u : SymbolTable) : Prop where
  /-- The next number is the same. -/
  counter : u.counter = t.counter
  /-- The texts and their names are the same. -/
  constants : u.constants = t.constants

/-- The name of a text is found among the texts and their names. -/
theorem labelOf?_eq_find?_constants (t : SymbolTable) (text : String) :
    t.labelOf? text
      = (t.constants.reverse.find? (·.2 == text)).map Prod.fst := by
  unfold constants labelOf? Scope.symbols
  rw [← List.filterMap_reverse, List.reverse_reverse, List.find?_filterMap]
  have hkind : ∀ s : Symbol, (s.kind == .constant text)
      = (s.constantText?.map fun text => (s.name, text)).any
        (·.2 == text) := by
    intro s
    unfold Symbol.constantText?
    cases s.kind with
    | constant text' => rw [Bool.eq_iff_iff]; simp
    | formal | introduced | temporary | label => rfl
  rw [funext hkind]
  cases hfind : t.global.newestFirst.find? _ with
  | none => rfl
  | some s =>
    have hs := List.find?_some hfind
    show some s.name = _
    cases htext : s.constantText? with
    | none => simp [htext] at hs
    | some _ => simp [htext]

variable {t u : SymbolTable} {id id' : ScopeId}

/-- A name that stands for no text leaves the texts alone. -/
theorem constants_grown {stem : String} {symbol : String → Symbol}
    (h : ∀ name, (symbol name).constantText? = none) :
    (t.grown stem id symbol).constants = t.constants := by
  cases id with
  | nested i => rfl
  | global =>
    refine (constants_push _ _).trans ?_
    rw [h]
    exact List.append_nil _

namespace Alike

theorem refl (t : SymbolTable) : t.Alike t := ⟨rfl, rfl⟩

theorem labelOf? (h : t.Alike u) (text : String) :
    u.labelOf? text = t.labelOf? text := by
  rw [labelOf?_eq_find?_constants, labelOf?_eq_find?_constants, h.constants]

theorem grown (h : t.Alike u) {stem stem' : String}
    {symbol symbol' : String → Symbol}
    (hsymbol : ∀ name, (symbol name).constantText? = none)
    (hsymbol' : ∀ name, (symbol' name).constantText? = none) :
    (t.grown stem id symbol).Alike (u.grown stem' id' symbol') where
  counter := by rw [counter_grown, counter_grown, h.counter]
  constants := by
    rw [constants_grown hsymbol, constants_grown hsymbol', h.constants]

/-- **A label was taken from each table**, be the hints what they may. -/
theorem label (h : t.Alike u) (hint hint' : String) :
    (t.freshLabel id (some hint)).2.Alike
      (u.freshLabel id' (some hint')).2 :=
  h.grown (fun _ => rfl) fun _ => rfl

theorem temporary (h : t.Alike u) (ty : Ty) :
    (t.freshTemporary id ty).2.Alike (u.freshTemporary id' ty).2 := by
  show (t.grown "%t" id (.temporary · ty)).Alike
    (u.grown "%t" id' (.temporary · ty))
  exact h.grown (fun _ => rfl) fun _ => rfl

/-- **A request gets the same answer.** -/
theorem answer (h : t.Alike u) (id id' : ScopeId) (r : Request) :
    (r.answer id' u).1 = (r.answer id t).1
      ∧ (r.answer id t).2.Alike (r.answer id' u).2 := by
  cases r with
  | temporary ty =>
    exact ⟨congrArg ("%t" ++ Decimal.ofNat ·) h.counter, h.temporary ty⟩
  | label hint =>
    exact ⟨congrArg ("." ++ hint ++ Decimal.ofNat ·) h.counter,
      h.label hint hint⟩
  | constant text =>
    show (u.intern text).1 = (t.intern text).1
      ∧ (t.intern text).2.Alike (u.intern text).2
    have hsame := h.labelOf? text
    cases hlabel : t.labelOf? text with
    | some label =>
      rw [intern_of_some hlabel, intern_of_some (hsame.trans hlabel)]
      exact ⟨rfl, h⟩
    | none =>
      rw [intern_of_none hlabel, intern_of_none (hsame.trans hlabel)]
      refine ⟨congrArg (".str" ++ Decimal.ofNat ·) h.counter, ?_, ?_⟩
      · rw [counter_grown, counter_grown, h.counter]
      · rw [constants_grown_constant, constants_grown_constant, h.counter,
          h.constants]

/-- **Requests get the same answers**, and the tables go on to be alike. -/
theorem serve (h : t.Alike u) (id id' : ScopeId) (rs : List Request) :
    t.AnswerAlike .same id id' rs u
      ∧ (t.serve id rs).Alike (u.serve id' rs) := by
  induction rs generalizing t u with
  | nil => exact ⟨trivial, h⟩
  | cons r rs ih =>
    obtain ⟨hanswer, htables⟩ := h.answer id id' r
    obtain ⟨hrest, hlast⟩ := ih htables
    refine ⟨⟨?_, hrest⟩, hlast⟩
    cases r <;> exact hanswer

end Alike

end SymbolTable

theorem Code.rename_same (code : Code) : code.rename .same = code := by
  refine (List.map_congr_left fun i _ => ?_).trans (List.map_id code)
  cases i <;> rfl

theorem Emit.Mirrors.run_alike {id id' : ScopeId} {rs : List Request}
    {x y : Emit Code} (h : Emit.Mirrors .same id id' rs (Code.rename .same) x y)
    {t u : SymbolTable} (halike : t.Alike u) :
    (y.run u).1 = (x.run t).1 ∧ (x.run t).2.Alike (y.run u).2 := by
  obtain ⟨hanswers, htables⟩ := halike.serve id id' rs
  obtain ⟨ht, hu, hcode⟩ := h t u hanswers
  rw [ht, hu, hcode, Code.rename_same]
  exact ⟨rfl, htables⟩

namespace Expr

variable {site : Site} {t u : SymbolTable}

/-- **The code for an expression is the same over tables that are alike**, for
whatever scope it is emitted. -/
theorem emit_alike (e : Expr Judged) (site : Site) (dest : Destination)
    (id : ScopeId) (h : t.Alike u) :
    ((e.emit { site with scope := id } dest).run u).1
        = ((e.emit site dest).run t).1
      ∧ ((e.emit site dest).run t).2.Alike
        ((e.emit { site with scope := id } dest).run u).2 := by
  have hmirrors := @mirrors_emit .same id site e dest
  rw [e.rename_same] at hmirrors
  cases dest <;> exact hmirrors.run_alike h

/-- **The labels in the code for an expression are new.** -/
theorem made_of_mem_labels {e : Expr Judged} {dest : Destination} {l : Label}
    (hl : l ∈ ((e.emit site dest).run t).1.labels) :
    Made t.counter ((e.emit site dest).run t).2.counter l := by
  -- over a table with a scope for the code, it is the same
  let u : SymbolTable := ⟨t.global, [.empty ""], t.counter⟩
  have halike : t.Alike u := ⟨rfl, rfl⟩
  obtain ⟨hcode, htables⟩ := e.emit_alike site dest (.nested 0) halike
  have htakes := (e.emits { site with scope := .nested 0 } dest u).takes
  have hbody : u.IsBody (.nested 0) := ⟨Nat.zero_lt_one, nofun⟩
  rw [← htables.counter]
  rw [← hcode] at hl
  exact ((htakes.nodup hbody).2 l hl).1

theorem counter_le_emit (e : Expr Judged) (dest : Destination) :
    t.counter ≤ ((e.emit site dest).run t).2.counter :=
  (e.emits site dest t).takes.grows.counter_le

end Expr

end Primer
