import Primer.Proofs.Reordering.Emission

/-!
# Code that is the same up to names

A program and the program in another order are compiled to the same code, up
to the names that were made up. One permutation of names takes all names of
the one assembled program to those of the other: those of temporaries and
labels in the scope of each body, and those of texts (`Assembly.SameUpTo`).
It leaves plain names alone, so parameters, variables and routines keep their
names, and it changes no stem, so a name still shows what it was made up for.

The permutation is there because the two tables have made up names with the
same stems for the same bodies, none of them twice
(`SymbolTable.exists_perm_namesFor`). That the code is the same under it comes
from what emission asks of a table, which is the same for the same body
(`Definition.EmittedAs.sameUpTo`).
-/

namespace Primer

open SymbolTable

/-! ## Routines and programs that are the same -/

/-- **A routine is the same up to names** as one of another program. -/
structure Routine.SameUpTo (π : Equiv.Perm String) (t u : SymbolTable)
    (r r' : Routine) : Prop where
  /-- It is called by the same name. -/
  name : r'.name = r.name
  /-- It has the same parameters. -/
  params : r'.prototype.params = r.prototype.params
  /-- Its result has the same type. -/
  ret : r'.prototype.ret = r.prototype.ret
  /-- It has the same code, under new names. -/
  code : r'.code = r.code.rename ⟨π, π⟩
  /-- Its scope has the same symbols, under new names. -/
  scope : u.scope r'.prototype.scope
    = (t.scope r.prototype.scope).rename ⟨π, π⟩

/-- **An assembled program is the same up to names** as another one, and the
names are only those that were made up. -/
structure Assembly.SameUpTo (π : Equiv.Perm String) (a b : Assembly) :
    Prop where
  /-- Plain names stay. -/
  plain : ∀ name, Ident.Plain name → π name = name
  /-- No name of a body gets another stem. -/
  stems : ∀ r ∈ a.bodies,
    ∀ s ∈ (a.symbols.scope r.prototype.scope).newestFirst,
      Ident.stem (π s.name) = Ident.stem s.name
  /-- No name of a text gets another stem. -/
  textStems : ∀ label text, a.symbols.constant? label = some text →
    Ident.stem (π label) = Ident.stem label
  /-- The new name of a text means the text. -/
  texts : ∀ label, b.symbols.constant? (π label) = a.symbols.constant? label
  /-- The main routine is the same. -/
  main : a.main.SameUpTo π a.symbols b.symbols b.main
  /-- Each name means the same routine, or none. -/
  routines : ∀ callee,
    Option.Rel (Routine.SameUpTo π a.symbols b.symbols) (a.routine? callee)
      (b.routine? callee)
  /-- There are the same routines, in some order. -/
  names : (b.routines.map Routine.name).Perm (a.routines.map Routine.name)

/-! ## One routine -/

namespace Definition.EmittedAs

variable {c c' : Constants} {before before' final final' : SymbolTable}
  {d : Definition Judged} {r r' : Routine}

/-- The names that were made up for a body have the same stems, whatever else
was emitted. -/
theorem stems (h : d.EmittedAs c before final r)
    (h' : d.EmittedAs c' before' final' r')
    (hscope : before'.scope r'.prototype.scope
      = before.scope r.prototype.scope) :
    (final.madeIn r.prototype.scope).map Ident.stem
      = (final'.madeIn r'.prototype.scope).map Ident.stem := by
  obtain ⟨t, hhas, ht, -, hfinal, -⟩ := h.code
  obtain ⟨u, hhas', hu, -, hfinal', -⟩ := h'.code
  obtain ⟨new, new', hnew, hnew', hstems⟩ := exists_madeIn_serve
    (ne_global_of_scopeOf? h.scopeOf?) (ne_global_of_scopeOf? h'.scopeOf?)
    hhas hhas' d.requests
  have hold : u.madeIn r'.prototype.scope = t.madeIn r.prototype.scope :=
    madeIn_congr (hu.trans (hscope.trans ht.symm))
  rw [madeIn_congr hfinal, madeIn_congr hfinal', hnew, hnew', hold,
    List.map_append, List.map_append, hstems]

/-- **The routine of a body is the same**, up to names, as one that was
emitted elsewhere, if the body starts with the same scope, if the names that
were made up for it and the names of texts are exchanged, and if its own names
stay. -/
theorem sameUpTo (h : d.EmittedAs c before final r)
    (h' : d.EmittedAs c' before' final' r') {π : Equiv.Perm String}
    (hc : c' = c.rename ⟨π, π⟩)
    (hscope : before'.scope r'.prototype.scope
      = (before.scope r.prototype.scope).rename ⟨π, π⟩)
    (hlength : (before.madeIn r.prototype.scope).length
      = (before'.madeIn r'.prototype.scope).length)
    (hmade : (final.madeIn r.prototype.scope).map π
      = final'.madeIn r'.prototype.scope)
    (hlabels : ∀ text label, final.labelOf? text = some label →
      final'.labelOf? text = some (π label))
    (hname : π d.name = d.name)
    (hbody : Stmt.renameAll ⟨π, π⟩ d.body.stmts = d.body.stmts) :
    r.SameUpTo π final final' r' := by
  have hid := ne_global_of_scopeOf? h.scopeOf?
  have hid' := ne_global_of_scopeOf? h'.scopeOf?
  obtain ⟨t, hhas, ht, hcode, hfinal, hkept⟩ := h.code
  obtain ⟨u, hhas', hu, hcode', hfinal', hkept'⟩ := h'.code
  have halike : t.AnswerAlike ⟨π, π⟩ r.prototype.scope r'.prototype.scope
      d.requests u := by
    refine answerAlike_of_madeIn hid hid' hhas hhas' ?_ ?_ ?_
    · rw [madeIn_congr ht, hlength, madeIn_congr hu]
    · rw [← madeIn_congr hfinal, hmade, madeIn_congr hfinal']
    · intro text label hasked hlabel
      -- the other table has a name for the text as well
      obtain ⟨label', hlabel'⟩ := Option.isSome_iff_exists.mp
        ((labelOf?_serve (t := u) hid' d.requests text).2.mpr (.inr hasked))
      have hfinally := hlabels text label (hkept text label hlabel)
      rw [hkept' text label' hlabel'] at hfinally
      rw [hlabel', hfinally]
  obtain ⟨-, -, hmirrors⟩ := @mirrors_emitBody ⟨π, π⟩ r'.prototype.scope
    r.prototype.scope c d.name d.body.stmts t u halike
  rw [← hc, hbody, show Names.routine ⟨π, π⟩ d.name = d.name from hname,
    ← hcode, ← hcode'] at hmirrors
  have hprototype := h.prototype
  have hprototype' := h'.prototype
  refine ⟨?_, ?_, ?_, hmirrors, ?_⟩
  · rw [Routine.name, Routine.name, hprototype, hprototype']
  · rw [hprototype, hprototype']
  · rw [hprototype, hprototype']
  · rw [hfinal, hfinal']
    refine halike.scope_serve hid hid' hhas hhas' ?_
    rw [hu, ht, hscope]

end Definition.EmittedAs

/-! ## Names that stay -/

section Plain

variable {π : Equiv.Perm String} (hπ : ∀ name, Ident.Plain name → π name = name)
include hπ

/-- Where names are plain, new names for others are no new names. -/
theorem Program.HasPlainNames.agree {α : Type} {p : Program α}
    (h : p.HasPlainNames) {Γ : Context} (hΓ : ∀ b ∈ Γ, Ident.Plain b.1) :
    Names.Agree p.signature? Γ ⟨π, π⟩ .same where
  slot b hb := hπ b.1 (hΓ b hb)
  routine callee hcallee := by
    rw [Program.signature?, Option.isSome_map] at hcallee
    obtain ⟨d, hd⟩ := Option.isSome_iff_exists.mp hcallee
    have hname : d.name = callee := by simpa using List.find?_some hd
    exact hname ▸ hπ d.name (h.definitions d (List.mem_of_find?_eq_some hd))

namespace TypedProgram

variable {typed : TypedProgram} {p : Program Span}
  (hcheck : p.check = .ok typed) (hplain : typed.program.HasPlainNames)
include hcheck hplain

/-- **A body with plain names stays** what it is. -/
theorem renameAll_body {d : Definition Judged}
    (hd : d ∈ typed.program.bodies) :
    Stmt.renameAll ⟨π, π⟩ d.body.stmts = d.body.stmts := by
  obtain ⟨id, -, hfills⟩ := Program.exists_fills_of_check hcheck hd
  obtain ⟨_, Γ, _, -, heffect, -⟩ := hfills.holds
  have hagree := hplain.agree hπ (hplain.context hd heffect)
  exact (heffect.rename_congr hagree).trans (Stmt.renameAll_same _)

/-- **The scope of a body stays** what it is after the check. -/
theorem rename_scope {d : Definition Judged} (hd : d ∈ typed.program.bodies)
    {id : ScopeId} (hid : typed.symbols.scopeOf? d.name = some id) :
    (typed.symbols.scope id).rename ⟨π, π⟩ = typed.symbols.scope id := by
  obtain ⟨id', hid', hfills⟩ := Program.exists_fills_of_check hcheck hd
  obtain rfl := Option.some.inj (hid.symm.trans hid')
  refine Scope.rename_eq_self ?_ fun s hs => ?_
  · rw [hfills.owner]
    exact hπ d.name (hplain.bodies d hd)
  · have hname := plain_of_check hcheck hplain (ne_global_of_scopeOf? hid) s hs
    exact ⟨hπ s.name hname, hπ s.name hname⟩

end TypedProgram

end Plain

/-! ## Two programs -/

/-- The text that is asked for. -/
def Request.text? : Request → Option String
  | constant text => some text
  | _ => none

/-- The texts that are asked for. -/
theorem Request.mem_filterMap_text? {rs : List Request} {text : String} :
    text ∈ rs.filterMap Request.text? ↔ .constant text ∈ rs := by
  rw [List.mem_filterMap]
  constructor
  · rintro ⟨r, hr, htext⟩
    cases r <;> cases htext
    exact hr
  · exact fun h => ⟨_, h, rfl⟩

theorem Program.nodup_owners {p : Program Span} {typed : TypedProgram}
    (hcheck : p.check = .ok typed) :
    (typed.symbols.nested.map Scope.owner).Nodup := by
  rw [(fills_of_check hcheck).1]
  exact (check_sound hcheck).wellTyped.nodup_bodies

theorem Assembly.routine?_eq_none {a : Assembly} {callee : Ident} :
    a.routine? callee = none ↔ callee ∉ a.routines.map Routine.name := by
  rw [routine?, List.find?_eq_none, List.mem_map, not_exists]
  exact forall_congr' fun r => by rw [not_and, beq_iff_eq]

namespace Assembly

variable {a : Assembly} (hnodup : (a.bodies.map Routine.name).Nodup)
  {r : Routine} (hr : r ∈ a.bodies)
include hnodup hr

theorem eq_main (hname : r.name = a.main.name) : r = a.main :=
  List.inj_on_of_nodup_map hnodup hr
    (List.mem_append_right _ (List.mem_singleton_self _)) hname

theorem routine?_eq_some (hname : r.name ≠ a.main.name) :
    a.routine? r.name = some r := by
  rw [bodies, List.map_append] at hnodup
  refine (find?_eq_some_of_nodup (List.nodup_append.mp hnodup).1).mpr ⟨?_, rfl⟩
  refine (List.mem_append.mp hr).resolve_right fun hmain => hname ?_
  rw [List.mem_singleton.mp hmain]

end Assembly

/-- The routines have the names of the definitions, and the main one has the
name of the main script. -/
theorem TypedProgram.EmittedAs.map_name_routines {typed : TypedProgram}
    {a : Assembly} (h : typed.EmittedAs a) :
    a.routines.map Routine.name
        = typed.program.definitions.map Definition.name
      ∧ a.main.name = Program.entryPoint := by
  have hnames := h.names
  rw [Assembly.bodies, Program.bodies, List.map_append, List.map_append]
    at hnames
  obtain ⟨hroutines, hmain⟩ := List.append_inj' hnames rfl
  exact ⟨hroutines, List.singleton_inj.mp hmain⟩

theorem TypedProgram.EmittedAs.nodup_names {typed : TypedProgram}
    {p : Program Span} {a : Assembly} (h : typed.EmittedAs a)
    (hcheck : p.check = .ok typed) : (a.bodies.map Routine.name).Nodup :=
  h.names ▸ (Program.check_sound hcheck).wellTyped.nodup_bodies

/-- Each routine of a checked program was emitted for a body. -/
theorem TypedProgram.EmittedAs.exists_body {typed : TypedProgram}
    {p : Program Span} {a : Assembly} (h : typed.EmittedAs a)
    (hcheck : p.check = .ok typed) {r : Routine} (hr : r ∈ a.bodies) :
    ∃ d ∈ typed.program.bodies, d.EmittedAs
      (Emit.constants.run typed.symbols).1 typed.symbols a.symbols r := by
  have hname := List.mem_map_of_mem (f := Routine.name) hr
  rw [h.names] at hname
  obtain ⟨d, hd, hname⟩ := List.mem_map.mp hname
  -- it is the routine of the body with its name
  obtain ⟨r', hr', hemitted⟩ := h.bodies d hd
  have hname' : r'.name = d.name := congrArg Prototype.name hemitted.prototype
  obtain rfl := List.inj_on_of_nodup_map (h.nodup_names hcheck) hr' hr
    (hname'.trans hname)
  exact ⟨d, hd, hemitted⟩

/-- **A permutation exchanges the names that were made up** in two programs
that are emitted for the same bodies. -/
structure TypedProgram.Exchanges (typed : TypedProgram)
    (π : Equiv.Perm String) (a b : Assembly) : Prop where
  /-- Plain names stay. -/
  plain : ∀ name, Ident.Plain name → π name = name
  /-- The names made up for a body are exchanged, in order. -/
  made : ∀ d ∈ typed.program.bodies,
    (a.symbols.madeFor d.name).map π = b.symbols.madeFor d.name
  /-- The name of a text is exchanged for the name of the text. -/
  labels : ∀ text label, a.symbols.labelOf? text = some label →
    b.symbols.labelOf? text = some (π label)

namespace TypedProgram.IsReordering

variable {typed typed' : TypedProgram} {p q : Program Span} {a b : Assembly}

theorem mem_requests (h : typed.IsReordering typed') (r : Request) :
    r ∈ typed'.requests ↔ r ∈ typed.requests :=
  ((h.program.bodies.flatMap_right _).append_left _).mem_iff

/-- **For each body the same names were made up**, except for numbers. -/
theorem stems (h : typed.IsReordering typed') (hcheck : p.check = .ok typed)
    (ha : typed.EmittedAs a) (hb : typed'.EmittedAs b) {d : Definition Judged}
    (hd : d ∈ typed.program.bodies) :
    (a.symbols.madeFor d.name).map Ident.stem
      = (b.symbols.madeFor d.name).map Ident.stem := by
  obtain ⟨r, -, hr⟩ := ha.bodies d hd
  obtain ⟨r', -, hr'⟩ := hb.bodies d (h.program.bodies.mem_iff.mpr hd)
  rw [madeFor_of_scopeOf? ((ha.owners d.name).trans hr.scopeOf?),
    madeFor_of_scopeOf? ((hb.owners d.name).trans hr'.scopeOf?)]
  exact hr.stems hr' (h.scope_eq (Program.nodup_owners hcheck) hr.scopeOf?
    hr'.scopeOf?)

/-- **One permutation takes all names of the one program to those of the
other.** -/
theorem exists_exchanges (h : typed.IsReordering typed')
    (hcheck : p.check = .ok typed) (ha : typed.EmittedAs a)
    (hb : typed'.EmittedAs b) : ∃ π, typed.Exchanges π a b := by
  have hsome : ∀ text ∈ typed.requests.filterMap Request.text?,
      (a.symbols.labelOf? text).isSome ∧ (b.symbols.labelOf? text).isSome := by
    intro text htext
    rw [Request.mem_filterMap_text?] at htext
    exact ⟨(ha.texts text).mpr htext,
      (hb.texts text).mpr ((h.mem_requests _).mpr htext)⟩
  obtain ⟨π, hplain, hmade, htexts⟩ := exists_perm_namesFor ha.distinct
    ha.named hb.distinct hb.named
    (Program.check_sound hcheck).wellTyped.nodup_bodies
    (List.forall_mem_map.mpr fun d hd => h.stems hcheck ha hb hd)
    _ (fun text htext => (hsome text htext).1)
    (fun text htext => (hsome text htext).2)
  refine ⟨π, hplain, List.forall_mem_map.mp hmade, ?_⟩
  intro text label hlabel
  have hasked : text ∈ typed.requests.filterMap Request.text? :=
    Request.mem_filterMap_text?.mpr ((ha.texts text).mp (by rw [hlabel]; rfl))
  obtain ⟨label', hlabel'⟩ :=
    Option.isSome_iff_exists.mp (hsome text hasked).2
  have hname := htexts text hasked
  rw [intern_of_some hlabel, intern_of_some hlabel'] at hname
  exact hlabel'.trans (congrArg some hname.symm)

/-- **The texts that any code may print** have the new names. -/
theorem constants_eq (hcheck : p.check = .ok typed)
    (hcheck' : q.check = .ok typed')
    (hplain : typed.program.HasPlainNames)
    (hplain' : typed'.program.HasPlainNames) (ha : typed.EmittedAs a)
    (hb : typed'.EmittedAs b) {π : Equiv.Perm String}
    (hπ : typed.Exchanges π a b) :
    (Emit.constants.run typed'.symbols).1
      = (Emit.constants.run typed.symbols).1.rename ⟨π, π⟩ := by
  have hscript {typed : TypedProgram} :
      typed.program.script ∈ typed.program.bodies :=
    List.mem_append_right _ (List.mem_singleton_self _)
  -- no name is made up in the scope of the main script
  obtain ⟨id, hid, -⟩ := Program.exists_fills_of_check hcheck hscript
  obtain ⟨id', hid', -⟩ := Program.exists_fills_of_check hcheck' hscript
  have hglobal := ne_global_of_scopeOf? hid
  have hglobal' := ne_global_of_scopeOf? hid'
  have hgrows := (emits_constants typed.symbols).grows .global
  have hgrows' := (emits_constants typed'.symbols).grows .global
  have hnone := madeIn_eq_nil (plain_of_check hcheck hplain hglobal)
  have hnone' := madeIn_eq_nil (plain_of_check hcheck' hplain' hglobal')
  have hserve := run_constants_snd typed.symbols id
  have hserve' := run_constants_snd typed'.symbols id'
  have hmade := madeIn_congr (hgrows.scope_of_ne hglobal.symm hglobal)
  have hmade' := madeIn_congr (hgrows'.scope_of_ne hglobal'.symm hglobal')
  rw [hserve, hnone] at hmade
  rw [hserve', hnone'] at hmade'
  have halike : typed.symbols.AnswerAlike ⟨π, π⟩ id id' Constants.requests
      typed'.symbols := by
    refine answerAlike_of_madeIn hglobal hglobal' (has_of_scopeOf? hid)
      (has_of_scopeOf? hid') (by rw [hnone, hnone']) ?_ ?_
    · rw [hmade, hmade']
      rfl
    · intro text label hasked hlabel
      rw [← hserve] at hlabel
      obtain ⟨label', hlabel'⟩ := Option.isSome_iff_exists.mp
        ((labelOf?_serve (t := typed'.symbols) hglobal' Constants.requests
          text).2.mpr (.inr hasked))
      have hfinally := hπ.labels text label
        (ha.constants text label hlabel)
      rw [hb.constants text label' (hserve' ▸ hlabel')] at hfinally
      rw [hlabel', hfinally]
  exact ((Emit.mirrors_constants ⟨π, π⟩ id id') _ _ halike).2.2

/-- **Each routine is the same up to names** in another order. -/
theorem exists_routines (h : typed.IsReordering typed')
    (hcheck : p.check = .ok typed) (hcheck' : q.check = .ok typed')
    (hplain : typed.program.HasPlainNames) (ha : typed.EmittedAs a)
    (hb : typed'.EmittedAs b) {π : Equiv.Perm String}
    (hπ : typed.Exchanges π a b) :
    ∀ d ∈ typed.program.bodies, ∃ r ∈ a.bodies, ∃ r' ∈ b.bodies,
      r.name = d.name ∧ r.SameUpTo π a.symbols b.symbols r' := by
  intro d hd
  have hplain' := h.program.hasPlainNames hplain
  have hc := constants_eq hcheck hcheck' hplain hplain' ha hb hπ
  obtain ⟨r, hmem, hr⟩ := ha.bodies d hd
  obtain ⟨r', hmem', hr'⟩ := hb.bodies d (h.program.bodies.mem_iff.mpr hd)
  have hscope := h.scope_eq (Program.nodup_owners hcheck) hr.scopeOf?
    hr'.scopeOf?
  have hnames := hπ.made d hd
  rw [madeFor_of_scopeOf? ((ha.owners d.name).trans hr.scopeOf?),
    madeFor_of_scopeOf? ((hb.owners d.name).trans hr'.scopeOf?)] at hnames
  refine ⟨r, hmem, r', hmem', congrArg Prototype.name hr.prototype,
    hr.sameUpTo hr' hc ?_ ?_ hnames hπ.labels
      (hπ.plain _ (hplain.bodies d hd))
      (renameAll_body hπ.plain hcheck hplain hd)⟩
  · rw [hscope, rename_scope hπ.plain hcheck hplain hd hr.scopeOf?]
  · rw [madeIn_congr hscope]

/-- No name of a body gets another stem. -/
theorem stem_perm (h : typed.IsReordering typed')
    (hcheck : p.check = .ok typed) (ha : typed.EmittedAs a)
    (hb : typed'.EmittedAs b) {π : Equiv.Perm String}
    (hπ : typed.Exchanges π a b) :
    ∀ r ∈ a.bodies, ∀ s ∈ (a.symbols.scope r.prototype.scope).newestFirst,
      Ident.stem (π s.name) = Ident.stem s.name := by
  intro r hr s hs
  by_cases hplain : Ident.Plain s.name
  · rw [hπ.plain s.name hplain]
  obtain ⟨d, hd, hemitted⟩ := ha.exists_body hcheck hr
  have hmem : s.name ∈ a.symbols.madeFor d.name := by
    rw [madeFor_of_scopeOf? ((ha.owners d.name).trans hemitted.scopeOf?)]
    exact List.mem_filter.mpr
      ⟨List.mem_map_of_mem hs, decide_eq_true hplain⟩
  have hstems := h.stems hcheck ha hb hd
  rw [← hπ.made d hd, List.map_map] at hstems
  exact (List.map_inj_left.mp hstems s.name hmem).symm

/-- A text has a name in both tables or in none. -/
theorem labelOf?_exchange (h : typed.IsReordering typed')
    (ha : typed.EmittedAs a) (hb : typed'.EmittedAs b)
    {π : Equiv.Perm String} (hπ : typed.Exchanges π a b) (text : String)
    (label : Label) :
    b.symbols.labelOf? text = some (π label)
      ↔ a.symbols.labelOf? text = some label := by
  refine ⟨fun hlabel => ?_, hπ.labels text label⟩
  have hasked := (hb.texts text).mp (by rw [hlabel]; rfl)
  obtain ⟨label', hlabel'⟩ := Option.isSome_iff_exists.mp
    ((ha.texts text).mpr ((h.mem_requests _).mp hasked))
  have heq := hπ.labels text label' hlabel'
  rw [hlabel, Option.some.injEq, π.injective.eq_iff] at heq
  rw [hlabel', heq]

/-- **Each name means the same routine**, or none, if there is the same
routine for each body. -/
theorem routines_sameUpTo (h : typed.IsReordering typed')
    (hcheck : p.check = .ok typed) (hcheck' : q.check = .ok typed')
    (ha : typed.EmittedAs a) (hb : typed'.EmittedAs b)
    {π : Equiv.Perm String}
    (hbodies : ∀ d ∈ typed.program.bodies, ∃ r ∈ a.bodies, ∃ r' ∈ b.bodies,
      r.name = d.name ∧ r.SameUpTo π a.symbols b.symbols r')
    (callee : Ident) :
    Option.Rel (Routine.SameUpTo π a.symbols b.symbols) (a.routine? callee)
      (b.routine? callee) := by
  obtain ⟨hnames, hmain⟩ := ha.map_name_routines
  obtain ⟨hnames', hmain'⟩ := hb.map_name_routines
  by_cases hcallee : callee ∈ typed.program.definitions.map Definition.name
  · obtain ⟨d, hd, rfl⟩ := List.mem_map.mp hcallee
    obtain ⟨r, hr, r', hr', hname, hsame⟩ := hbodies d
      (List.mem_append_left _ hd)
    have hne := (Program.check_sound hcheck).wellTyped.entryPoint d hd
    have hfound := Assembly.routine?_eq_some (ha.nodup_names hcheck) hr
      (by rwa [hname, hmain])
    have hfound' := Assembly.routine?_eq_some (hb.nodup_names hcheck') hr'
      (by rwa [hsame.name, hname, hmain'])
    rw [hname] at hfound
    rw [hsame.name, hname] at hfound'
    rw [hfound, hfound']
    exact .some hsame
  · have hnone : a.routine? callee = none :=
      Assembly.routine?_eq_none.mpr (hnames ▸ hcallee)
    have hnone' : b.routine? callee = none :=
      Assembly.routine?_eq_none.mpr
        (hnames' ▸ mt h.program.names.mem_iff.mp hcallee)
    rw [hnone, hnone']
    exact .none

/-- **Code in another order is the same up to names.** -/
theorem exists_sameUpTo (h : typed.IsReordering typed')
    (hcheck : p.check = .ok typed) (hcheck' : q.check = .ok typed')
    (hplain : typed.program.HasPlainNames) (ha : typed.EmittedAs a)
    (hb : typed'.EmittedAs b) : ∃ π, a.SameUpTo π b := by
  obtain ⟨π, hπ⟩ := h.exists_exchanges hcheck ha hb
  have hbodies := h.exists_routines hcheck hcheck' hplain ha hb hπ
  obtain ⟨hnames, hmain⟩ := ha.map_name_routines
  obtain ⟨hnames', hmain'⟩ := hb.map_name_routines
  refine ⟨π, hπ.plain, h.stem_perm hcheck ha hb hπ, ?_, ?_, ?_,
    h.routines_sameUpTo hcheck hcheck' ha hb hbodies, ?_⟩
  · intro label text htext
    have hlabel := ha.named.constant?_eq_some.mp htext
    rw [(ha.named.of_labelOf? hlabel).2,
      (hb.named.of_labelOf? (hπ.labels text label hlabel)).2]
  · intro label
    refine Option.ext fun text => ?_
    rw [ha.named.constant?_eq_some, hb.named.constant?_eq_some,
      h.labelOf?_exchange ha hb hπ]
  · obtain ⟨r, hr, r', hr', hname, hsame⟩ := hbodies typed.program.script
      (List.mem_append_right _ (List.mem_singleton_self _))
    obtain rfl := Assembly.eq_main (ha.nodup_names hcheck) hr
      (hname.trans hmain.symm)
    obtain rfl := Assembly.eq_main (hb.nodup_names hcheck') hr'
      (hsame.name.trans (hname.trans hmain'.symm))
    exact hsame
  · rw [hnames, hnames']
    exact h.program.names

end TypedProgram.IsReordering

end Primer
