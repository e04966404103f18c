import Primer.Proofs.Emission.Requests
import Primer.Proofs.Emission.Texts

/-!
# The names that a table gives out

A symbol table makes up names, in the scopes of bodies for temporaries and
labels and in the global scope for texts (`SymbolTable.madeIn`). No two of
them are the same, whatever scopes they are in (`SymbolTable.Distinct`), for
no number is counted twice; and a text has one name (`SymbolTable.Named`).

Two tables that serve the same requests make up as many names with the same
stems, in the same order. A permutation that takes the names of the one table
to those of the other therefore takes each answer to the answer of the other
table (`SymbolTable.answerAlike_of_madeIn`). That there is one, even for all
the names of two programs at once, is `exists_perm_map_eq`: it is enough that
the names of each are different.
-/

namespace Primer

open Text

/-! ## Stems -/

/-- **The stem of a name**: the name without the digits at its end. -/
def Ident.stem (name : String) : String :=
  String.ofList (name.toList.reverse.dropWhile Char.isDigit).reverse

/-- A number at the end of a name does not count for its stem. -/
theorem Ident.stem_append_ofNat (stem : String) (n : Nat) :
    Ident.stem (stem ++ Decimal.ofNat n) = Ident.stem stem := by
  have hdigits : ∀ c ∈ (Decimal.ofNat n).toList.reverse, c.isDigit = true :=
    fun c hc => isDigit_of_mem_ofNat (List.mem_reverse.mp hc)
  unfold Ident.stem
  rw [String.toList_append, List.reverse_append,
    List.dropWhile_append_of_pos hdigits]

/-! ## Names in a table -/

namespace SymbolTable

/-- **The names that were made up in a scope**, the newest first: those that
are not plain. -/
def madeIn (t : SymbolTable) (id : ScopeId) : List String :=
  ((t.scope id).newestFirst.map Symbol.name).filter (¬ Ident.Plain ·)

/-- **The names that were made up are different**, in all scopes together, and
their numbers have been counted. -/
structure Distinct (t : SymbolTable) : Prop where
  /-- No name is made up twice in a scope. -/
  nodup : ∀ id, (t.madeIn id).Nodup
  /-- No name is made up in two scopes. -/
  disjoint : ∀ id id', id ≠ id' → (t.madeIn id).Disjoint (t.madeIn id')
  /-- The numbers have been counted. -/
  made : ∀ id, ∀ name ∈ t.madeIn id, Made 0 t.counter name

/-- **The names of texts are in order**: they mean the texts, and no text has
two. -/
structure Named (t : SymbolTable) : Prop where
  /-- They mean the texts. -/
  tidy : t.Tidy
  /-- No text has two. -/
  unique : ∀ s ∈ t.global.newestFirst, ∀ s' ∈ t.global.newestFirst,
    ∀ text, s.kind = .constant text → s'.kind = .constant text → s = s'
  /-- They have one stem. -/
  stem : ∀ s ∈ t.global.newestFirst, ∀ text, s.kind = .constant text →
    ∃ n, s.name = ".str" ++ Decimal.ofNat n

variable {t u : SymbolTable} {id id' : ScopeId}

theorem madeIn_congr (h : t.scope id = u.scope id') :
    t.madeIn id = u.madeIn id' := by
  rw [madeIn, madeIn, h]

theorem madeIn_eq_nil
    (h : ∀ s ∈ (t.scope id).newestFirst, Ident.Plain s.name) :
    t.madeIn id = [] := by
  refine List.filter_eq_nil_iff.mpr fun name hname => ?_
  obtain ⟨s, hs, rfl⟩ := List.mem_map.mp hname
  simpa using h s hs

/-- A step of growth makes up one name. -/
theorem madeIn_grown {stem : String} {symbol : String → Symbol}
    (h : Addition id stem id' symbol) (hhas : t.Has id') (other : ScopeId) :
    (t.grown stem id' symbol).madeIn other = if other = id'
      then (stem ++ Decimal.ofNat t.counter) :: t.madeIn other
      else t.madeIn other := by
  unfold madeIn
  split
  · next heq =>
    subst heq
    have hname := (Made.single h.isStem t.counter).not_plain
    rw [scope_grown_self hhas, Scope.push, List.map_cons, h.name_eq,
      List.filter_cons_of_pos (by simpa using hname)]
  · next hne =>
    rw [scope_grown_of_ne (Ne.symm hne)]

/-- **A step of growth keeps the names different.** -/
theorem Distinct.grown (ht : t.Distinct) {stem : String}
    {symbol : String → Symbol} (h : Addition id stem id' symbol)
    (hhas : t.Has id') : (t.grown stem id' symbol).Distinct := by
  have hnext := Made.single h.isStem t.counter
  -- the number is new, and so the name is
  have hnew (other : ScopeId) :
      stem ++ Decimal.ofNat t.counter ∉ t.madeIn other := fun hmem =>
    absurd ((ht.made other _ hmem).disjoint hnext) (Nat.lt_irrefl _)
  have hmade := madeIn_grown h hhas
  constructor
  · intro other
    rw [hmade]
    split
    · exact List.nodup_cons.mpr ⟨hnew other, ht.nodup other⟩
    · exact ht.nodup other
  · intro one other hne
    rw [hmade, hmade]
    split
    · next heq =>
      subst heq
      rw [if_neg (Ne.symm hne), List.disjoint_cons_left]
      exact ⟨hnew other, ht.disjoint _ other hne⟩
    · split
      · rw [List.disjoint_cons_right]
        exact ⟨hnew one, ht.disjoint one other hne⟩
      · exact ht.disjoint one other hne
  · intro other name hname
    rw [hmade] at hname
    rw [counter_grown]
    have hold : name ∈ t.madeIn other → Made 0 (t.counter + 1) name :=
      fun hmem => (ht.made other name hmem).mono (Nat.le_refl 0)
        (Nat.le_succ _)
    split at hname
    · rcases List.mem_cons.mp hname with rfl | hmem
      · exact hnext.mono (Nat.zero_le _) (Nat.le_refl _)
      · exact hold hmem
    · exact hold hname

/-- Growth keeps the names different. -/
theorem Distinct.grows (ht : t.Distinct) (h : Grows id t u)
    (hhas : t.Has id) : u.Distinct := by
  induction h with
  | refl => exact ht
  | @step t' stem id' symbol h ha ih =>
    refine ih.grown ha ?_
    cases ha with
    | temporary | label => exact h.has hhas
    | constant => trivial

theorem madeIn_declare {name : Ident} (hname : Ident.Plain name)
    (other : ScopeId) :
    (t.modify .global (·.push (.label name))).madeIn other
      = t.madeIn other := by
  cases other with
  | global =>
    exact List.filter_cons_of_neg fun h => of_decide_eq_true h hname
  | nested i => rfl

/-- Declaring a plain name keeps the names different. -/
theorem Distinct.declare (h : t.Distinct) {name : Ident}
    (hname : Ident.Plain name) :
    (t.modify .global (·.push (.label name))).Distinct := by
  have hmade := @madeIn_declare t name hname
  constructor
  · intro id
    rw [hmade]
    exact h.nodup id
  · intro id id' hne
    rw [hmade, hmade]
    exact h.disjoint id id' hne
  · intro id name hname
    rw [hmade] at hname
    exact h.made id name hname

/-! ## Names of texts -/

/-- **The name of a text** is made up in the global scope, and all names of
texts have one stem. -/
theorem Named.of_labelOf? (h : t.Named) {text : String} {label : Label}
    (hlabel : t.labelOf? text = some label) : label ∈ t.madeIn .global
      ∧ Ident.stem label = Ident.stem ".str" := by
  obtain ⟨s, hs, rfl⟩ := Option.map_eq_some_iff.mp hlabel
  have hmem := List.mem_of_find?_eq_some hs
  obtain ⟨n, hname⟩ := h.stem s hmem text (by simpa using List.find?_some hs)
  have hplain := (Made.single stem_constant n).not_plain
  rw [← hname] at hplain
  refine ⟨List.mem_filter.mpr
    ⟨List.mem_map_of_mem hmem, by simpa using hplain⟩, ?_⟩
  rw [hname, Ident.stem_append_ofNat]

/-- **A name means a text if it is the name of the text.** -/
theorem Named.constant?_eq_some (h : t.Named) {label : Label}
    {text : String} :
    t.constant? label = some text ↔ t.labelOf? text = some label := by
  constructor
  · intro hlabel
    obtain ⟨s, hs, rfl, hfind⟩ := exists_of_constant? hlabel
    have hkind : s.kind = .constant text := by
      rw [constant?, hfind] at hlabel
      revert hlabel
      show s.constantText? = some text → _
      unfold Symbol.constantText?
      cases s.kind <;> simp
    cases hof : t.global.newestFirst.find? (·.kind == .constant text) with
    | none => simpa [hkind] using List.find?_eq_none.mp hof s hs
    | some s' =>
      have hkind' : s'.kind = .constant text := by
        simpa using List.find?_some hof
      rw [labelOf?, hof, h.unique s hs s' (List.mem_of_find?_eq_some hof)
        text hkind hkind']
      rfl
  · intro hlabel
    exact h.tidy.constant?_intern (intern_of_some hlabel)

theorem labelOf?_declare (name : Ident) (text : String) :
    (t.modify .global (·.push (.label name))).labelOf? text
      = t.labelOf? text :=
  (labelOf?_push _ (.label name) text).trans (if_neg SymbolKind.noConfusion)

/-- Declaring the name of a routine keeps the names of texts in order. -/
theorem Named.declare (h : t.Named) {name : Ident} (hname : Ident.Plain name)
    (hdeclare : t.declare .global (.label name) = .ok u) : u.Named := by
  obtain ⟨-, rfl⟩ := declare_global_eq_ok hdeclare
  have hold {s : Symbol} {text : String} (hkind : s.kind = .constant text)
      (hs : s ∈ (t.global.push (.label name)).newestFirst) :
      s ∈ t.global.newestFirst := by
    rcases List.mem_cons.mp hs with rfl | hs
    · cases hkind
    · exact hs
  exact ⟨(h.tidy.declare hname hdeclare).1,
    fun s hs s' hs' text hk hk' =>
      h.unique s (hold hk hs) s' (hold hk' hs') text hk hk',
    fun s hs text hk => h.stem s (hold hk hs) text hk⟩

end SymbolTable

/-! ## Answers -/

/-- The symbols that the scope of a body gets by a request. -/
def Request.pushed (name : String) : Request → List Symbol
  | temporary ty => [.temporary name ty]
  | label _ => [.label name]
  | constant _ => []

theorem Request.pushed_rename (ν : Names) (r : Request) (name : String) :
    r.pushed (r.rename ν name) = (r.pushed name).map (·.rename ν) := by
  cases r <;> rfl

namespace SymbolTable

variable {t u : SymbolTable} {id id' : ScopeId}

/-- An answer makes no scope. -/
theorem has_answer (id : ScopeId) (r : Request) {other : ScopeId}
    (h : t.Has other) : (r.answer id t).2.Has other := by
  have hlength : (r.answer id t).2.nested.length = t.nested.length := by
    cases r with
    | temporary | label => exact length_nested_modify ..
    | constant text =>
      rw [Request.answer, intern]
      split
      · rfl
      · exact length_nested_modify ..
  cases other with
  | global => trivial
  | nested i =>
    unfold Has
    rw [hlength]
    exact h

/-- **What the scope of a body gets by an answer.** -/
theorem scope_answer (hid : id ≠ .global) (hhas : t.Has id) (r : Request) :
    (r.answer id t).2.scope id = ⟨(t.scope id).owner,
      r.pushed (r.answer id t).1 ++ (t.scope id).newestFirst⟩ := by
  cases r with
  | temporary ty =>
    exact @scope_grown_self t id "%t" (.temporary · ty) hhas
  | label hint => exact @scope_grown_self t id ("." ++ hint) .label hhas
  | constant text =>
    cases hlabel : t.labelOf? text with
    | some label =>
      rw [Request.answer, intern_of_some hlabel]
      rfl
    | none =>
      rw [Request.answer, intern_of_none hlabel]
      exact scope_grown_of_ne hid.symm

/-- No answer is a plain name, except for one that a text had. -/
theorem not_plain_pushed (r : Request) :
    ∀ s ∈ r.pushed (r.answer id t).1, ¬ Ident.Plain s.name := by
  cases r with
  | temporary ty =>
    exact List.forall_mem_singleton.mpr
      (Made.single stem_temporary t.counter).not_plain
  | label hint =>
    exact List.forall_mem_singleton.mpr fun hplain =>
      hplain.2 (Ident.beginsWith_point hint _)
  | constant text => exact nofun

/-- The names that are made up in the scope of a body by an answer. -/
theorem madeIn_answer (hid : id ≠ .global) (hhas : t.Has id) (r : Request) :
    (r.answer id t).2.madeIn id
      = (r.pushed (r.answer id t).1).map Symbol.name ++ t.madeIn id := by
  unfold madeIn
  rw [scope_answer hid hhas, List.map_append, List.filter_append]
  refine congrArg (· ++ _) (List.filter_eq_self.mpr fun name hname => ?_)
  obtain ⟨s, hs, rfl⟩ := List.mem_map.mp hname
  simpa using not_plain_pushed r s hs

/-- **What a text is called after an answer**: it keeps its name, and it has
one after it was asked for. -/
theorem labelOf?_answer (hid : id ≠ .global) (r : Request) (text : String) :
    (∀ label, t.labelOf? text = some label →
        (r.answer id t).2.labelOf? text = some label)
      ∧ (((r.answer id t).2.labelOf? text).isSome ↔
        (t.labelOf? text).isSome ∨ r = .constant text) := by
  cases id with
  | global => exact absurd rfl hid
  | nested i =>
    cases r with
    | temporary | label => exact ⟨fun _ h => h, by simp; rfl⟩
    | constant text' =>
      rw [Request.answer]
      cases hlabel : t.labelOf? text' with
      | some label =>
        rw [intern_of_some hlabel]
        refine ⟨fun _ h => h, (or_iff_left_of_imp ?_).symm⟩
        rintro heq
        cases heq
        rw [hlabel]
        rfl
      | none =>
        rw [intern_of_none hlabel]
        rw [show labelOf? _ text = _ from labelOf?_grown_constant t text text']
        by_cases heq : text' = text
        · subst heq
          rw [if_pos rfl, hlabel]
          exact ⟨nofun, by simp⟩
        · rw [if_neg heq]
          exact ⟨fun _ h => h, by simp [heq]⟩

/-- A text that is asked for has the answer for its name. -/
theorem labelOf?_constant (id : ScopeId) (text : String) :
    ((Request.constant text).answer id t).2.labelOf? text
      = some ((Request.constant text).answer id t).1 := by
  rw [Request.answer]
  cases hlabel : t.labelOf? text with
  | some label => rw [intern_of_some hlabel, hlabel]
  | none =>
    rw [intern_of_none hlabel]
    exact (labelOf?_grown_constant t text text).trans (if_pos rfl)

/-- A text that has no name gets one that is in order. -/
theorem Named.constant (h : t.Named) {text : String}
    (hlabel : t.labelOf? text = none) :
    (t.grown ".str" .global (.constant · text)).Named := by
  -- no other symbol stands for the text
  have hnew : ∀ s ∈ t.global.newestFirst, s.kind ≠ .constant text := by
    intro s hs hkind
    have hnone := List.find?_eq_none.mp (Option.map_eq_none_iff.mp hlabel) s hs
    exact hnone (beq_iff_eq.mpr hkind)
  refine ⟨h.tidy.grown (@Addition.constant .global text), ?_, ?_⟩
  · intro s hs s' hs' text' hkind hkind'
    rcases List.mem_cons.mp hs with rfl | hs
    · rcases List.mem_cons.mp hs' with rfl | hs'
      · rfl
      · cases hkind
        exact absurd hkind' (hnew s' hs')
    · rcases List.mem_cons.mp hs' with rfl | hs'
      · cases hkind'
        exact absurd hkind (hnew s hs)
      · exact h.unique s hs s' hs' text' hkind hkind'
  · intro s hs text' hkind
    rcases List.mem_cons.mp hs with rfl | hs
    · exact ⟨t.counter, rfl⟩
    · exact h.stem s hs text' hkind

/-- **An answer keeps the names of texts in order.** -/
theorem Named.answer (h : t.Named) (hid : id ≠ .global) (r : Request) :
    (r.answer id t).2.Named := by
  cases id with
  | global => exact absurd rfl hid
  | nested i =>
    cases r with
    | temporary | label =>
      -- the global scope is the one of before, and the counter is greater
      exact ⟨⟨h.tidy.found, fun s hs hi hmade => h.tidy.ahead s hs hi
        (hmade.mono (Nat.le_succ _) (Nat.le_refl _))⟩, h.unique, h.stem⟩
    | constant text =>
      rw [Request.answer]
      cases hlabel : t.labelOf? text with
      | some label =>
        rw [intern_of_some hlabel]
        exact h
      | none =>
        rw [intern_of_none hlabel]
        exact h.constant hlabel

/-- Two answers to a request have one stem. -/
theorem stem_answer (t u : SymbolTable) (id id' : ScopeId) (r : Request) :
    ((r.pushed (r.answer id t).1).map Symbol.name).map Ident.stem
      = ((r.pushed (r.answer id' u).1).map Symbol.name).map Ident.stem := by
  cases r with
  | temporary ty =>
    exact congrArg ([·]) ((Ident.stem_append_ofNat "%t" t.counter).trans
      (Ident.stem_append_ofNat "%t" u.counter).symm)
  | label hint =>
    exact congrArg ([·]) ((Ident.stem_append_ofNat _ t.counter).trans
      (Ident.stem_append_ofNat _ u.counter).symm)
  | constant text => rfl

/-! ## Requests, one after the other -/

/-- **Serving requests keeps the names of texts in order.** -/
theorem Named.serve (h : t.Named) (hid : id ≠ .global) (rs : List Request) :
    (t.serve id rs).Named := by
  induction rs generalizing t with
  | nil => exact h
  | cons r rs ih => exact ih (h.answer hid r)

/-- **What a text is called after requests**: it keeps its name, and it has
one if it was asked for. -/
theorem labelOf?_serve (hid : id ≠ .global) (rs : List Request)
    (text : String) :
    (∀ label, t.labelOf? text = some label →
        (t.serve id rs).labelOf? text = some label)
      ∧ (((t.serve id rs).labelOf? text).isSome ↔
        (t.labelOf? text).isSome ∨ .constant text ∈ rs) := by
  induction rs generalizing t with
  | nil => exact ⟨fun _ h => h, by simp [serve]⟩
  | cons r rs ih =>
    obtain ⟨hkeeps, hsome⟩ := labelOf?_answer (t := t) hid r text
    obtain ⟨hkeeps', hsome'⟩ := @ih (r.answer id t).2
    refine ⟨fun label hlabel => hkeeps' label (hkeeps label hlabel), ?_⟩
    rw [serve, hsome', hsome, List.mem_cons, or_assoc]
    exact or_congr_right (or_congr_left eq_comm)

/-- **The names that two tables make up for requests** have the same stems. -/
theorem exists_madeIn_serve (hid : id ≠ .global) (hid' : id' ≠ .global)
    (hhas : t.Has id) (hhas' : u.Has id') (rs : List Request) :
    ∃ new new', (t.serve id rs).madeIn id = new ++ t.madeIn id
      ∧ (u.serve id' rs).madeIn id' = new' ++ u.madeIn id'
      ∧ new.map Ident.stem = new'.map Ident.stem := by
  induction rs generalizing t u with
  | nil => exact ⟨[], [], rfl, rfl, rfl⟩
  | cons r rs ih =>
    obtain ⟨new, new', hnew, hnew', hstems⟩ :=
      ih (has_answer id r hhas) (has_answer id' r hhas')
    rw [madeIn_answer hid hhas, ← List.append_assoc] at hnew
    rw [madeIn_answer hid' hhas', ← List.append_assoc] at hnew'
    refine ⟨_, _, hnew, hnew', ?_⟩
    rw [List.map_append, List.map_append, hstems, stem_answer]

/-- **Tables that answer alike fill scopes alike.** -/
theorem AnswerAlike.scope_serve {ν : Names} (hid : id ≠ .global)
    (hid' : id' ≠ .global) (hhas : t.Has id) (hhas' : u.Has id')
    {rs : List Request} (h : t.AnswerAlike ν id id' rs u)
    (hscope : u.scope id' = (t.scope id).rename ν) :
    (u.serve id' rs).scope id' = ((t.serve id rs).scope id).rename ν := by
  induction rs generalizing t u with
  | nil => exact hscope
  | cons r rs ih =>
    refine ih (has_answer id r hhas) (has_answer id' r hhas') h.2 ?_
    rw [scope_answer hid hhas, scope_answer hid' hhas', hscope, h.1,
      Request.pushed_rename]
    exact congrArg (Scope.mk _) List.map_append.symm

/-- **Two tables answer alike under a permutation of names** if it takes the
names that the one makes up to those that the other makes up, and the name of
each text that is asked for to its name. -/
theorem answerAlike_of_madeIn {π : Equiv.Perm String} (hid : id ≠ .global)
    (hid' : id' ≠ .global) (hhas : t.Has id) (hhas' : u.Has id')
    {rs : List Request}
    (hlength : (t.madeIn id).length = (u.madeIn id').length)
    (hmade : ((t.serve id rs).madeIn id).map π = (u.serve id' rs).madeIn id')
    (hlabels : ∀ text label, .constant text ∈ rs →
      (t.serve id rs).labelOf? text = some label →
        (u.serve id' rs).labelOf? text = some (π label)) :
    t.AnswerAlike ⟨π, π⟩ id id' rs u := by
  induction rs generalizing t u with
  | nil => trivial
  | cons r rs ih =>
    have hlengths : ((r.answer id t).2.madeIn id).length
        = ((r.answer id' u).2.madeIn id').length := by
      rw [madeIn_answer hid hhas, madeIn_answer hid' hhas']
      have hpushed := congrArg List.length (stem_answer t u id id' r)
      simp only [List.length_map] at hpushed
      simp only [List.length_append, List.length_map, hpushed, hlength]
    have hhas₁ := has_answer id r hhas
    have hhas₁' := has_answer id' r hhas'
    refine ⟨?_, ih hhas₁ hhas₁' hlengths hmade fun text label hmem =>
      hlabels text label (List.mem_cons_of_mem r hmem)⟩
    -- the answers are among the names at the end, and at the same place
    obtain ⟨new, new', hnew, hnew', hstems⟩ :=
      exists_madeIn_serve hid hid' hhas₁ hhas₁' rs
    have hnews : new.length = new'.length := by
      simpa using congrArg List.length hstems
    rw [serve, serve, hnew, hnew', List.map_append] at hmade
    have hanswers := (List.append_inj hmade (by simpa using hnews)).2
    rw [madeIn_answer hid hhas, madeIn_answer hid' hhas'] at hanswers
    cases r with
    | temporary | label => exact (List.cons.inj hanswers).1.symm
    | constant text =>
      obtain ⟨hkeeps, -⟩ := labelOf?_serve
        (t := ((Request.constant text).answer id t).2) hid rs text
      obtain ⟨hkeeps', -⟩ := labelOf?_serve
        (t := ((Request.constant text).answer id' u).2) hid' rs text
      have hlabel := hlabels text _ (List.mem_cons_self ..)
        (hkeeps _ (labelOf?_constant id text))
      exact Option.some.inj
        ((hkeeps' _ (labelOf?_constant id' text)).symm.trans hlabel)

/-! ## One permutation for all names -/

/-- The names that were made up in the scope of an owner. -/
def madeFor (t : SymbolTable) (owner : Ident) : List String :=
  (t.scopeOf? owner).elim [] t.madeIn

theorem madeFor_of_scopeOf? {owner : Ident} (h : t.scopeOf? owner = some id) :
    t.madeFor owner = t.madeIn id := by
  rw [madeFor, h]
  rfl

theorem mem_madeFor {owner : Ident} {name : String}
    (h : name ∈ t.madeFor owner) :
    ∃ id, t.scopeOf? owner = some id ∧ name ∈ t.madeIn id := by
  unfold madeFor at h
  cases hscope : t.scopeOf? owner with
  | none => simp [hscope] at h
  | some id => exact ⟨id, rfl, by simpa [hscope] using h⟩

theorem not_plain_of_mem_madeIn {name : String} (h : name ∈ t.madeIn id) :
    ¬ Ident.Plain name := of_decide_eq_true (List.mem_filter.mp h).2

/-- **The names of a table**: those made up for owners, and those of texts. -/
def namesFor (t : SymbolTable) (owners : List Ident) (texts : List String) :
    List String :=
  owners.flatMap t.madeFor ++ texts.map fun text => (t.intern text).1

/-- **The names of a table are different.** -/
theorem nodup_namesFor (ht : t.Distinct) (hnamed : t.Named)
    {owners : List Ident} (howners : owners.Nodup) {texts : List String}
    (htexts : texts.Nodup) (hsome : ∀ text ∈ texts,
      (t.labelOf? text).isSome) : (t.namesFor owners texts).Nodup := by
  have hlabel : ∀ text ∈ texts,
      t.labelOf? text = some (t.intern text).1 := by
    intro text htext
    obtain ⟨label, hlabel⟩ := Option.isSome_iff_exists.mp (hsome text htext)
    rw [intern_of_some hlabel, hlabel]
  refine List.nodup_append.mpr ⟨List.nodup_flatMap.mpr ⟨?_, ?_⟩, ?_, ?_⟩
  · intro owner _
    unfold madeFor
    cases t.scopeOf? owner with
    | none => exact List.nodup_nil
    | some id => exact ht.nodup id
  · -- two owners have two scopes
    refine howners.imp fun hne name hname hname' => ?_
    obtain ⟨id, hid, hname⟩ := mem_madeFor hname
    obtain ⟨id', hid', hname'⟩ := mem_madeFor hname'
    refine ht.disjoint id id' ?_ hname hname'
    rintro rfl
    exact hne (scopeOf?_inj hid hid')
  · -- a name means one text
    refine htexts.map_on fun text htext text' htext' heq => ?_
    have hmeans := hnamed.constant?_eq_some.mpr (hlabel text htext)
    rw [heq, hnamed.constant?_eq_some.mpr (hlabel text' htext')] at hmeans
    exact (Option.some.inj hmeans).symm
  · rintro name hname _ hname' rfl
    obtain ⟨owner, -, hname⟩ := List.mem_flatMap.mp hname
    obtain ⟨id, hid, hname⟩ := mem_madeFor hname
    obtain ⟨text, htext, rfl⟩ := List.mem_map.mp hname'
    exact ht.disjoint id .global (ne_global_of_scopeOf? hid) hname
      (hnamed.of_labelOf? (hlabel text htext)).1

/-- No name of a table is plain. -/
theorem not_plain_of_mem_namesFor (hnamed : t.Named) {owners : List Ident}
    {texts : List String} (hsome : ∀ text ∈ texts,
      (t.labelOf? text).isSome) :
    ∀ name ∈ t.namesFor owners texts, ¬ Ident.Plain name := by
  intro name hname
  rcases List.mem_append.mp hname with hname | hname
  · obtain ⟨owner, -, hname⟩ := List.mem_flatMap.mp hname
    obtain ⟨id, -, hname⟩ := mem_madeFor hname
    exact not_plain_of_mem_madeIn hname
  · obtain ⟨text, htext, rfl⟩ := List.mem_map.mp hname
    obtain ⟨label, hlabel⟩ := Option.isSome_iff_exists.mp (hsome text htext)
    rw [intern_of_some hlabel]
    exact not_plain_of_mem_madeIn (hnamed.of_labelOf? hlabel).1

/-- Lists that are equal piece by piece in length are equal piece by piece. -/
theorem map_eq_of_flatMap_eq {owners : List Ident} {f g : Ident → List String}
    {π : String → String}
    (hlength : ∀ owner ∈ owners, (f owner).length = (g owner).length)
    (h : (owners.flatMap f).map π = owners.flatMap g) :
    ∀ owner ∈ owners, (f owner).map π = g owner := by
  induction owners with
  | nil => exact nofun
  | cons owner owners ih =>
    obtain ⟨hfirst, hlater⟩ := List.forall_mem_cons.mp hlength
    rw [List.flatMap_cons, List.flatMap_cons, List.map_append] at h
    obtain ⟨hsame, hrest⟩ := List.append_inj h (by simpa using hfirst)
    exact List.forall_mem_cons.mpr ⟨hsame, ih hlater hrest⟩

/-- **One permutation takes the names of a table to those of another**, if the
tables have made up names with the same stems for the same owners, and have
named the same texts. It leaves plain names alone. -/
theorem exists_perm_namesFor (ht : t.Distinct) (hnamed : t.Named)
    (hu : u.Distinct) (hnamed' : u.Named) {owners : List Ident}
    (howners : owners.Nodup) (hstems : ∀ owner ∈ owners,
      (t.madeFor owner).map Ident.stem = (u.madeFor owner).map Ident.stem)
    (texts : List String)
    (hsome : ∀ text ∈ texts, (t.labelOf? text).isSome)
    (hsome' : ∀ text ∈ texts, (u.labelOf? text).isSome) :
    ∃ π : Equiv.Perm String, (∀ name, Ident.Plain name → π name = name)
      ∧ (∀ owner ∈ owners, (t.madeFor owner).map π = u.madeFor owner)
      ∧ ∀ text ∈ texts, π (t.intern text).1 = (u.intern text).1 := by
  have hsub : ∀ text ∈ texts.dedup, text ∈ texts :=
    fun text => List.mem_dedup.mp
  have hsome := fun text htext => hsome text (hsub text htext)
  have hsome' := fun text htext => hsome' text (hsub text htext)
  have hlength : ∀ owner ∈ owners,
      (t.madeFor owner).length = (u.madeFor owner).length := by
    intro owner howner
    simpa using congrArg List.length (hstems owner howner)
  have hlengths : (owners.flatMap t.madeFor).length
      = (owners.flatMap u.madeFor).length := by
    rw [List.length_flatMap, List.length_flatMap,
      List.map_congr_left hlength]
  obtain ⟨π, hplain, hnames⟩ := exists_perm_map_eq (¬ Ident.Plain ·)
    (nodup_namesFor ht hnamed howners texts.nodup_dedup hsome)
    (nodup_namesFor hu hnamed' howners texts.nodup_dedup hsome')
    (by simp [namesFor, hlengths])
    (not_plain_of_mem_namesFor hnamed hsome)
    (not_plain_of_mem_namesFor hnamed' hsome')
  unfold namesFor at hnames
  rw [List.map_append] at hnames
  obtain ⟨hmade, htexts⟩ := List.append_inj hnames (by simpa using hlengths)
  rw [List.map_map] at htexts
  exact ⟨π, fun name hname => hplain name (not_not.mpr hname),
    map_eq_of_flatMap_eq hlength hmade, fun text htext =>
      List.map_inj_left.mp htexts text (List.mem_dedup.mpr htext)⟩

end SymbolTable

end Primer
