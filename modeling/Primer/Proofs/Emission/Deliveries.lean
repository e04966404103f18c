import Primer.Proofs.Emission.Footprints

/-!
# Values are delivered last

The code that stores the value of an expression writes the destination on
every path through it, and after that it reads nothing (`Code.Delivers`). So
an assignment may mention the variable that it assigns to.

Two things can be at the end of such code. Mostly it is one instruction that
writes the destination, with nothing behind it. For a truth value as a text it
is a choice between two instructions, which meet again behind the choice
(`Expr.Emits.ending`). In both cases some of the positions in the code are
*late*: control comes to them by writing the destination, and does not leave
them but at the end.
-/

namespace Primer

open SymbolTable

theorem Instr.targets_eq_nil_of_dst? {i : Instr} {dst : Slot}
    (h : i.dst? = some dst) : i.targets = [] := by
  cases i <;> first | rfl | cases h

theorem Instr.label?_eq_none_of_dst? {i : Instr} {dst : Slot}
    (h : i.dst? = some dst) : i.label? = none := by
  cases i <;> first | rfl | cases h

namespace Code

/-! ## Late positions -/

theorem Flow.suffix {code pos next : Code} (h : code.Flow pos next)
    (hpos : pos <:+ code) : next <:+ code := by
  cases h with
  | @next i => exact (List.suffix_cons i next).trans hpos
  | jump _ hfound => exact (atLabel?_eq_some hfound).1

/-- **Late positions** of code that writes a place: they have been come to by
writing the place, and nothing is read from there on. -/
structure IsLate (code : Code) (dst : Slot) (late : Code → Prop) : Prop where
  /-- One comes there by writing the place. -/
  enter : ∀ {i rest next}, i :: rest <:+ code → code.Flow (i :: rest) next →
    late next → late (i :: rest) ∨ i.dst? = some dst
  /-- One stays there. -/
  stay : ∀ {i rest next}, late (i :: rest) → code.Flow (i :: rest) next →
    late next
  /-- Nothing is read there. -/
  reads : ∀ {i rest}, late (i :: rest) → i.reads = []

/-- **Writing the place leads to late positions.** -/
def LeadsTo (code : Code) (dst : Slot) (late : Code → Prop) : Prop :=
  ∀ {i rest next}, i :: rest <:+ code → i.dst? = some dst →
    code.Flow (i :: rest) next → late next

namespace IsLate

variable {code pos last : Code} {dst : Slot} {late : Code → Prop}
  {trace : List Instr}

/-- **A path to a late position writes the place**, unless it starts at one.
-/
theorem exists_write (h : code.IsLate dst late) (hpos : pos <:+ code)
    (hpath : code.Path pos trace last) (hstart : ¬ late pos)
    (hlast : late last) : ∃ i ∈ trace, i.dst? = some dst := by
  induction hpath with
  | nil => exact absurd hlast hstart
  | @cons i rest next last trace hflow _ ih =>
    by_cases hnext : late next
    · exact ⟨i, List.mem_cons_self ..,
        (h.enter hpos hflow hnext).resolve_left hstart⟩
    · obtain ⟨j, hj, hdst⟩ := ih (hflow.suffix hpos) hnext hlast
      exact ⟨j, List.mem_cons_of_mem i hj, hdst⟩

theorem reads_of_path (h : code.IsLate dst late)
    (hpath : code.Path pos trace last) (hstart : late pos) :
    ∀ i ∈ trace, i.reads = [] := by
  induction hpath with
  | nil => nofun
  | cons hflow _ ih =>
    exact List.forall_mem_cons.mpr ⟨h.reads hstart, ih (h.stay hstart hflow)⟩

/-- **After the place is written, nothing is read** on a path. -/
theorem reads_after (h : code.IsLate dst late)
    (hleads : code.LeadsTo dst late) (hpos : pos <:+ code)
    (hpath : code.Path pos trace last) {before after : List Instr}
    {i : Instr} (htrace : trace = before ++ i :: after)
    (hi : i.dst? = some dst) : ∀ j ∈ after, j.reads = [] := by
  induction hpath generalizing before with
  | nil => cases before <;> cases htrace
  | cons hflow hpath ih =>
    cases before with
    | nil =>
      cases htrace
      exact h.reads_of_path hpath (hleads hpos hi hflow)
    | cons j before =>
      cases htrace
      exact ih (hflow.suffix hpos) rfl

end IsLate

/-- **Code delivers to a place**: on every path through it, the place is
written. -/
def Delivers (code : Code) (dst : Slot) : Prop :=
  ∀ trace, code.Path code trace [] → ∃ i ∈ trace, i.dst? = some dst

/-- **Code delivers to a place last**: what comes after the place is written,
on a path through the code, reads nothing. -/
def DeliversLast (code : Code) (dst : Slot) : Prop :=
  ∀ trace, code.Path code trace [] → ∀ before i after,
    trace = before ++ i :: after → i.dst? = some dst →
      ∀ j ∈ after, j.reads = []

/-! ## Ends of code -/

theorem eq_of_suffix {i j : Instr} {rest code : Code}
    (h : i :: rest <:+ code) (h' : j :: rest <:+ code) : i = j := by
  have hsuffix := List.suffix_of_suffix_length_le h h' (by simp)
  cases hsuffix.eq_of_length (by simp)
  rfl

/-- A position in code is at its end, or some instruction of what comes before
the end is there. -/
theorem suffix_append {i : Instr} {rest body tail : Code}
    (h : i :: rest <:+ body ++ tail) : i :: rest <:+ tail ∨ i ∈ body := by
  obtain ⟨before, heq⟩ := h
  rcases List.append_eq_append_iff.mp heq with ⟨as, hbody, hrest⟩
    | ⟨as, -, htail⟩
  · cases as with
    | nil => exact .inl ⟨[], hrest⟩
    | cons j as =>
      cases hrest
      refine .inr ?_
      rw [hbody]
      exact List.mem_append_right _ (List.mem_cons_self ..)
  · exact .inl ⟨as, htail.symm⟩

/-- Control does not jump to the end of code. -/
theorem Flow.of_nil {code : Code} {i : Instr} {rest : Code}
    (h : code.Flow (i :: rest) []) : rest = [] := by
  cases h with
  | next => rfl
  | jump _ hfound =>
    obtain ⟨-, _, heq⟩ := atLabel?_eq_some hfound
    cases heq

/-- **Code with one last instruction** is late at its end. -/
theorem isLate_concat {i : Instr} {dst : Slot} (body : Code)
    (hi : i.dst? = some dst) : IsLate (body ++ [i]) dst (· = []) where
  enter hpos hflow hnext := by
    subst hnext
    cases hflow.of_nil
    right
    rw [eq_of_suffix hpos (List.suffix_append body [i]), hi]
  stay h := by cases h
  reads h := by cases h

/-- An instruction that writes a place goes on to the next one. -/
theorem Flow.of_dst? {code : Code} {i : Instr} {rest next : Code} {dst : Slot}
    (h : code.Flow (i :: rest) next) (hi : i.dst? = some dst) :
    next = rest := by
  cases h with
  | next => rfl
  | jump hl =>
    rw [Instr.targets_eq_nil_of_dst? hi] at hl
    cases hl

/-- An instruction that writes a place that is not written before the end is
at the end. -/
theorem suffix_of_notMem_writes {i : Instr} {rest body tail : Code}
    {dst : Slot} (h : i :: rest <:+ body ++ tail) (hi : i.dst? = some dst)
    (hbody : dst ∉ body.writes) : i :: rest <:+ tail :=
  (suffix_append h).resolve_right fun hmem =>
    hbody (List.mem_filterMap.mpr ⟨i, hmem, hi⟩)

/-- If nothing else writes the place, the end comes after it is written. -/
theorem leadsTo_concat {i : Instr} {dst : Slot} {body : Code}
    (hbody : dst ∉ body.writes) : LeadsTo (body ++ [i]) dst (· = []) := by
  intro j rest next hpos hj hflow
  rw [hflow.of_dst? hj]
  rcases List.suffix_cons_iff.mp (suffix_of_notMem_writes hpos hj hbody)
    with heq | hnil
  · cases heq
    rfl
  · cases List.eq_nil_of_suffix_nil hnil

section Choice

variable {body : Code} {yes no join : Label} {onTrue onFalse : Instr}
  {dst : Slot}

/-- **The end of a choice** between two instructions, which meet again. -/
def choice (yes no join : Label) (onTrue onFalse : Instr) : Code :=
  [.label yes, onTrue, .jump join, .label no, onFalse, .label join]

/-- **The late positions of a choice**: those behind the two instructions. -/
def AfterChoice (no join : Label) (onFalse : Instr) (pos : Code) : Prop :=
  pos = [] ∨ pos = [.label join]
    ∨ pos = [.jump join, .label no, onFalse, .label join]

/-- The start of the code is not behind the two instructions. -/
theorem not_afterChoice :
    ¬ AfterChoice no join onFalse
      (body ++ choice yes no join onTrue onFalse) := by
  intro h
  rcases h with h | h | h <;>
    · have hlength := congrArg List.length h
      simp only [choice, List.length_append, List.length_cons,
        List.length_nil] at hlength
      omega

theorem labels_choice (htrue : onTrue.dst? = some dst)
    (hfalse : onFalse.dst? = some dst) :
    (body ++ choice yes no join onTrue onFalse).labels
      = body.labels ++ [yes, no, join] := by
  simp only [labels_append, choice, labels_cons, labels_nil,
    Instr.label?_eq_none_of_dst? htrue, Instr.label?_eq_none_of_dst? hfalse]
  rfl

/-- **Only the one jump goes to where the two instructions meet.** -/
theorem eq_of_join_mem_targets (hinner : body.Inner [yes, no])
    (htrue : onTrue.dst? = some dst) (hfalse : onFalse.dst? = some dst)
    (hnodup : (body ++ choice yes no join onTrue onFalse).labels.Nodup)
    {i : Instr} {rest : Code}
    (hpos : i :: rest <:+ body ++ choice yes no join onTrue onFalse)
    (hjoin : join ∈ i.targets) :
    i :: rest = [.jump join, .label no, onFalse, .label join] := by
  rcases suffix_append hpos with htail | hbody
  · simp only [choice, List.suffix_cons_iff, List.suffix_nil] at htail
    rcases htail with h | h | h | h | h | h | h
    · cases h
      cases hjoin
    · cases h
      rw [Instr.targets_eq_nil_of_dst? htrue] at hjoin
      cases hjoin
    · exact h
    · cases h
      cases hjoin
    · cases h
      rw [Instr.targets_eq_nil_of_dst? hfalse] at hjoin
      cases hjoin
    · cases h
      cases hjoin
    · cases h
  · -- in front of the choice, jumps go elsewhere
    rw [labels_choice htrue hfalse, List.nodup_append] at hnodup
    obtain ⟨-, hown, hdisjoint⟩ := hnodup
    rcases hinner.targets join (List.mem_flatMap.mpr ⟨i, hbody, hjoin⟩)
      with hmem | hmem
    · exact absurd rfl (hdisjoint join hmem join (by simp))
    · have hne : join ≠ yes ∧ join ≠ no := by
        simp only [List.nodup_cons, List.mem_cons, not_or] at hown
        exact ⟨Ne.symm hown.1.2.1, Ne.symm hown.2.1.1⟩
      exact absurd hmem (by simp [hne.1, hne.2])

/-- **Code that ends in a choice** is late behind the two instructions. -/
theorem isLate_choice (hinner : body.Inner [yes, no])
    (htrue : onTrue.dst? = some dst) (hfalse : onFalse.dst? = some dst)
    (hnodup : (body ++ choice yes no join onTrue onFalse).labels.Nodup) :
    IsLate (body ++ choice yes no join onTrue onFalse) dst
      (AfterChoice no join onFalse) := by
  have hends (before after : Code)
      (h : before ++ after = choice yes no join onTrue onFalse) :
      after <:+ body ++ choice yes no join onTrue onFalse :=
    ⟨body ++ before, by rw [← h, List.append_assoc]⟩
  have hlast : [.label join] <:+ body ++ choice yes no join onTrue onFalse :=
    hends [.label yes, onTrue, .jump join, .label no, onFalse] _ rfl
  constructor
  -- behind the two instructions control comes from there, or past a store
  · intro i rest next hpos hflow hnext
    rcases hnext with rfl | rfl | rfl
    · cases hflow.of_nil
      rw [eq_of_suffix hpos hlast]
      exact .inl (.inr (.inl rfl))
    · cases hflow with
      | next =>
        rw [eq_of_suffix hpos
          (hends [.label yes, onTrue, .jump join, .label no] _ rfl)]
        exact .inr hfalse
      | jump hl hfound =>
        obtain ⟨-, _, heq⟩ := atLabel?_eq_some hfound
        cases heq
        rw [eq_of_join_mem_targets hinner htrue hfalse hnodup hpos hl]
        exact .inl (.inr (.inr rfl))
    · cases hflow with
      | next =>
        rw [eq_of_suffix hpos (hends [.label yes] _ rfl)]
        exact .inr htrue
      | jump _ hfound =>
        obtain ⟨-, _, heq⟩ := atLabel?_eq_some hfound
        cases heq
  · intro i rest next h hflow
    rcases h with h | h | h <;> cases h
    · cases hflow with
      | next => exact .inl rfl
      | jump hl => cases hl
    · cases hflow with
      | next htargets => cases htargets
      | jump hl hfound =>
        cases List.mem_singleton.mp hl
        rw [atLabel?_of_suffix hnodup hlast] at hfound
        cases hfound
        exact .inr (.inl rfl)
  · intro i rest h
    rcases h with h | h | h <;> cases h <;> rfl

/-- If nothing else writes the place, what is behind the two instructions
comes after it is written. -/
theorem leadsTo_choice (hbody : dst ∉ body.writes) :
    LeadsTo (body ++ choice yes no join onTrue onFalse) dst
      (AfterChoice no join onFalse) := by
  intro j rest next hpos hj hflow
  rw [hflow.of_dst? hj]
  have hpos := suffix_of_notMem_writes hpos hj hbody
  simp only [choice, List.suffix_cons_iff, List.suffix_nil] at hpos
  rcases hpos with h | h | h | h | h | h | h <;> cases h
  · cases hj
  · exact .inr (.inr rfl)
  · cases hj
  · cases hj
  · exact .inr (.inl rfl)
  · cases hj

end Choice

/-- **How code ends that stores a value**: with an instruction that writes the
destination, or with a choice between two such. What comes before writes only
temporaries. -/
inductive EndsIn (dst : Slot) (temps : List Slot) : Code → Prop
  /-- One instruction. -/
  | one {body : Code} {i : Instr} (hi : i.dst? = some dst)
      (hbody : body.writes ⊆ temps) : EndsIn dst temps (body ++ [i])
  /-- A choice. -/
  | choice {body : Code} {yes no join : Label} {onTrue onFalse : Instr}
      (hinner : body.Inner [yes, no]) (htrue : onTrue.dst? = some dst)
      (hfalse : onFalse.dst? = some dst) (hbody : body.writes ⊆ temps) :
      EndsIn dst temps (body ++ choice yes no join onTrue onFalse)

/-- One instruction that writes the destination, behind two pieces that write
temporaries. -/
theorem EndsIn.behind {dst : Slot} {temps : List Slot} {body : Code}
    (rest : Code) {i : Instr} (hi : i.dst? = some dst)
    (hbody : body.writes ⊆ temps) (hrest : rest.writes ⊆ temps) :
    EndsIn dst temps (body ++ (rest ++ [i])) := by
  rw [← List.append_assoc]
  refine .one hi ?_
  rw [writes_append]
  exact List.append_subset.mpr ⟨hbody, hrest⟩

/-- One instruction that writes the destination, behind a value in a
temporary. -/
theorem EndsIn.behind_temporary {id : ScopeId} {ty : Ty} {dst temp : Slot}
    {t t₁ t' : SymbolTable} {code : Code} {read : List Slot}
    (htemp : t.freshTemporary id ty = (temp, t₁))
    (hcode : code.KeepsTo ([temp] ++ gained id t₁ t')
      (read ++ gained id t₁ t'))
    (hgrows : Grows id t₁ t') (hid : t.Has id) (rest : Code) {i : Instr}
    (hi : i.dst? = some dst) (hrest : rest.writes = []) :
    EndsIn dst (gained id t t') (code ++ (rest ++ [i])) := by
  obtain ⟨hkeeps, -⟩ := Expr.keepsTo_temporary [] htemp hcode hgrows (.refl _)
    hid (List.Subset.refl _)
  refine .behind rest hi hkeeps.writes ?_
  rw [hrest]
  exact List.nil_subset _

/-- **Code that ends by writing a place delivers to it**, and last, if no
temporary of the code is the place. -/
theorem EndsIn.delivers {dst : Slot} {temps : List Slot} {code : Code}
    (h : EndsIn dst temps code) (hnodup : code.labels.Nodup) :
    code.Delivers dst ∧ (dst ∉ temps → code.DeliversLast dst) := by
  suffices h : ∃ late, code.IsLate dst late ∧ ¬ late code ∧ late []
      ∧ (dst ∉ temps → code.LeadsTo dst late) by
    obtain ⟨late, hlate, hstart, hend, hleads⟩ := h
    have hall := List.suffix_refl code
    exact ⟨fun trace hpath => hlate.exists_write hall hpath hstart hend,
      fun hdst trace hpath before i after htrace hi =>
        hlate.reads_after (hleads hdst) hall hpath htrace hi⟩
  cases h with
  | @one body i hi hbody =>
    exact ⟨_, isLate_concat body hi, by simp, rfl, fun hdst =>
      leadsTo_concat fun hmem => hdst (hbody hmem)⟩
  | choice hinner htrue hfalse hbody =>
    exact ⟨_, isLate_choice hinner htrue hfalse hnodup, not_afterChoice,
      .inl rfl, fun hdst => leadsTo_choice fun hmem => hdst (hbody hmem)⟩

end Code

/-! ## Expressions -/

namespace Expr

variable {site : Site}

/-- **The code that stores a value ends by writing the destination.** -/
theorem Emits.endsIn {e : Expr Judged} {dst : Slot} {t t' : SymbolTable}
    {code : Code} (h : e.Emits site (.store dst) t code t')
    (hid : t.Has site.scope) :
    code.EndsIn dst (gained site.scope t t') := by
  match h with
  | .int | .unit | .boolStore | .varStore | .str _ =>
    exact @Code.EndsIn.one _ _ [] _ rfl (List.nil_subset _)
  | .arith hleft hlhs hright hrhs =>
    have hid₁ := (Grows.temporary hleft).has hid
    have hid₃ := (Grows.temporary hright).has (hlhs.takes.grows.has hid₁)
    obtain ⟨hcode, -⟩ := keepsTo_operands [] hleft (hlhs.keepsTo hid₁)
      hlhs.takes.grows hright (hrhs.keepsTo hid₃) hrhs.takes.grows hid
    exact .one rfl hcode.writes
  | .input htemp hoperand =>
    exact .behind_temporary htemp
      (hoperand.keepsTo ((Grows.temporary htemp).has hid))
      hoperand.takes.grows hid [.printString _] rfl rfl
  | .strToInt _ htemp hoperand | .intToStr _ htemp hoperand =>
    exact .behind_temporary htemp
      (hoperand.keepsTo ((Grows.temporary htemp).has hid))
      hoperand.takes.grows hid [] rfl rfl
  | .boolToStr _ (.mk hyes hno hjoin he) =>
    have hlabels := (Takes.labels (by simp) hyes hno hjoin).grows
    have hcode := (he.keepsTo (hlabels.has hid)).writes
    exact .choice he.inner rfl rfl (List.Subset.trans hcode
      (gained_subset hlabels he.takes.grows (.refl _) hid))
  | .keep _ hoperand => exact hoperand.endsIn hid
  | .call hargs =>
    refine .behind [.call _] rfl ?_ (List.nil_subset _)
    rw [Code.writes_append, Code.writes_setArguments, List.append_nil]
    exact (hargs.keepsTo hid).1.writes
  | .storeBranched _ hflag hchoice =>
    exact .behind_temporary hflag
      (hchoice.keepsTo ((Grows.temporary hflag).has hid) rfl rfl rfl rfl)
      (hchoice.takes rfl rfl).grows hid [] rfl rfl

/-- **Code of expressions does not interfere.** In a body, whatever the
expression and the table are, the code that stores the value writes the
destination and temporaries that were taken for it, and nothing else; the code
that branches on the value writes such temporaries alone. Both read variables
of the expression and such temporaries. Those are new, so if names are plain,
they are none of the variables. On every path through the code that stores the
value, the destination is written; and if that is a variable or a temporary
that was taken before, nothing is read after it has been written. -/
theorem code_does_not_interfere (site : Site) (t : SymbolTable)
    (hbody : t.IsBody site.scope) (e : Expr Judged) :
    (∀ dst : Slot,
      let x := (e.emitValue site dst).run t
      let temps := gained site.scope t x.2
      (∀ s ∈ x.1.writes, s = dst ∨ s ∈ temps)
      ∧ (∀ s ∈ x.1.reads, s ∈ e.reads ∨ s ∈ temps)
      ∧ (∀ s ∈ temps, Made t.counter x.2.counter s ∧ ¬ Ident.Plain s)
      ∧ x.1.Delivers dst
      ∧ (Ident.Plain dst ∨ Made 0 t.counter dst → x.1.DeliversLast dst))
    ∧ ∀ yes no : Label,
      let x := (e.emitCondition site yes no).run t
      let temps := gained site.scope t x.2
      (∀ s ∈ x.1.writes, s ∈ temps)
      ∧ (∀ s ∈ x.1.reads, s ∈ e.reads ∨ s ∈ temps)
      ∧ ∀ s ∈ temps, Made t.counter x.2.counter s ∧ ¬ Ident.Plain s := by
  have hmade (dest : Destination) : ∀ s ∈ gained site.scope t
      ((e.emit site dest).run t).2,
      Made t.counter ((e.emit site dest).run t).2.counter s := by
    have hgrows := (e.emits site dest t).takes.grows
    exact (hgrows.temporaries hbody.1).2
  have hnew (dest : Destination) := fun s hs =>
    And.intro (hmade dest s hs) (hmade dest s hs).not_plain
  refine ⟨fun dst => ?_, fun yes no => ?_⟩
  · have hemits := e.emits site (.store dst) t
    have hkeeps := hemits.keepsTo hbody.1
    obtain ⟨hdelivers, hlast⟩ := (hemits.endsIn hbody.1).delivers
      (hemits.takes.nodup hbody).1
    refine ⟨fun s hs => ?_, fun s hs => List.mem_append.mp (hkeeps.reads hs),
      hnew _, hdelivers, fun hdst => hlast fun hmem => ?_⟩
    · exact List.mem_cons.mp (hkeeps.writes hs)
    · have hdstMade := hmade (.store dst) dst hmem
      rcases hdst with hplain | hold
      · exact hdstMade.not_plain hplain
      · exact absurd (hold.disjoint hdstMade) (Nat.lt_irrefl _)
  · have hkeeps := (e.emits site (.branch yes no) t).keepsTo hbody.1
    exact ⟨fun s hs => hkeeps.writes hs,
      fun s hs => List.mem_append.mp (hkeeps.reads hs), hnew _⟩

/-- The sum `n + n`. -/
def twice : Expr Judged :=
  let note : Judged := ⟨.origin, .int⟩
  .binary note (.arith .add) (.var note "n") (.var note "n")

/-- The code for `n = n + n` writes `n` last. -/
theorem code_does_not_interfere_twice :
    ∃ (site : Site) (t : SymbolTable),
      let x := (twice.emitValue site "n").run t
      t.IsBody site.scope
      ∧ x.1 = [.move "%t4" "n", .move "%t5" "n",
        .arith .add "n" "%t4" "%t5"]
      ∧ gained site.scope t x.2 = ["%t4", "%t5"]
      ∧ (∀ s ∈ x.1.writes, s = "n" ∨ s ∈ ["%t4", "%t5"])
      ∧ (∀ s ∈ x.1.reads, s ∈ ["n", "n"] ∨ s ∈ ["%t4", "%t5"])
      ∧ x.1.Path x.1 x.1 [] ∧ x.1.Delivers "n" ∧ x.1.DeliversLast "n" := by
  let site : Site := ⟨.nested 0, ".done0", ⟨"", "", "", "", ""⟩⟩
  let t : SymbolTable := ⟨.empty "<global>", [.empty "f"], 4⟩
  have hbody : t.IsBody site.scope := ⟨Nat.zero_lt_one, nofun⟩
  obtain ⟨hvalue, -⟩ := code_does_not_interfere site t hbody twice
  obtain ⟨hwrites, hreads, -, hdelivers, hlast⟩ := hvalue "n"
  have hcode : ((twice.emitValue site "n").run t).1
      = [.move "%t4" "n", .move "%t5" "n", .arith .add "n" "%t4" "%t5"] := by
    decide
  have hgained : gained site.scope t ((twice.emitValue site "n").run t).2
      = ["%t4", "%t5"] := by decide
  rw [hgained] at hwrites hreads
  refine ⟨site, t, hbody, hcode, hgained, hwrites, hreads, ?_, hdelivers,
    hlast (.inl (by decide))⟩
  rw [hcode]
  exact .cons (.next rfl nofun) (.cons (.next rfl nofun)
    (.cons (.next rfl nofun) (.nil [])))

end Expr

end Primer
