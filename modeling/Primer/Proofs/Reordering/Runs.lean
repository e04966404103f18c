import Primer.Proofs.Machine.Lookups
import Primer.Proofs.Reordering.Assemblies
import Primer.Proofs.Safety

/-!
# The order of definitions does not matter

A program in another order passes the check if the program does. It is then
compiled to code that is the same up to the names that were made up
(`Assembly.SameUpTo`), and the runs tell the same (`Account`).

The runs are the same up to names because a run of the one code under the new
names sees what a run of the other code sees. Of the names that are made up
none is told. The calls in a log are calls of routines, which have plain
names. An error might show a temporary or a label, but a run ends as the
program ends, and the program means the same in another order.
-/

namespace Primer

open Transition

/-! ## Runs of code that is the same up to names -/

/-- The renaming that exchanges names by a permutation, everywhere. -/
def Renaming.throughout (π : Equiv.Perm String) : Renaming := ⟨fun _ => π, π⟩

theorem Renaming.throughout_isInjective (π : Equiv.Perm String) :
    (throughout π).IsInjective := ⟨fun _ => π.injective, π.injective⟩

/-- **The names that callers know are plain**: that of a routine and those of
its parameters. -/
structure Routine.HasPlainNames (r : Routine) : Prop where
  /-- That of the routine. -/
  name : Ident.Plain r.name
  /-- Those of the parameters. -/
  params : ∀ b ∈ r.prototype.params, Ident.Plain b.1

/-- Under new names the routine is seen as the one that is the same. -/
theorem Routine.SameUpTo.seen {π : Equiv.Perm String} {t u : SymbolTable}
    {r r' : Routine} (h : r.SameUpTo π t u r')
    (hπ : ∀ name, Ident.Plain name → π name = name) (hr : r.HasPlainNames) :
    r'.seen = (r.rename (.throughout π)).seen := by
  have hparams : Names.params ⟨π, π⟩ r.prototype.params
      = r.prototype.params :=
    (List.map_congr_left fun b hb =>
      congrArg (·, b.2) (hπ b.1 (hr.params b hb))).trans (List.map_id _)
  have hname : (r.rename (.throughout π)).name = r.name := hπ _ hr.name
  unfold Routine.seen
  rw [h.name, h.params, h.code, hname]
  exact congrArg (fun params => Routine.mk ⟨_, params, _, _⟩ _) hparams.symm

namespace Assembly.SameUpTo

variable {π : Equiv.Perm String} {a b : Assembly} (h : a.SameUpTo π b)
  (hplain : ∀ r ∈ a.bodies, r.HasPlainNames)
include h hplain

/-- No routine is called by a name that is not plain. -/
theorem routine?_eq_none {callee : Ident} (hcallee : ¬ Ident.Plain callee) :
    a.routine? callee = none ∧ b.routine? callee = none := by
  have hnone : a.routine? callee = none := by
    refine Assembly.routine?_eq_none.mpr fun hmem => hcallee ?_
    obtain ⟨r, hr, rfl⟩ := List.mem_map.mp hmem
    exact (hplain r (List.mem_append_left _ hr)).name
  refine ⟨hnone, ?_⟩
  have hrel := h.routines callee
  rw [hnone] at hrel
  generalize b.routine? callee = found at hrel
  cases hrel
  rfl

/-- **Under new names a program is seen as the one that is the same.** -/
theorem isSeenAs : (a.rename (.throughout π)).IsSeenAs b.seen where
  main := h.main.seen h.plain
    (hplain a.main (List.mem_append_right _ (List.mem_singleton_self _)))
  routine? callee := by
    have hρ := (Renaming.throughout_isInjective π).routine
    rw [b.isSeenAs_seen.routine?]
    by_cases hcallee : Ident.Plain callee
    · have hrename := routine?_rename hρ a callee
      rw [show (Renaming.throughout π).routine callee = callee from
        h.plain callee hcallee] at hrename
      rw [hrename]
      have hrel := h.routines callee
      have hfound {r : Routine} (hr : a.routine? callee = some r) :
          r.HasPlainNames := hplain r
        (List.mem_append_left _ (List.mem_of_find?_eq_some hr))
      generalize a.routine? callee = found at hrel hfound
      generalize b.routine? callee = found' at hrel
      cases hrel with
      | none => rfl
      | some hsame => exact congrArg some (hsame.seen h.plain (hfound rfl))
    · -- neither is the old name of the callee plain
      have hrename := routine?_rename hρ a (π.symm callee)
      have hold : ¬ Ident.Plain (π.symm callee) := by
        intro hplain
        have hfixed := h.plain _ hplain
        rw [π.apply_symm_apply] at hfixed
        exact hcallee (hfixed ▸ hplain)
      rw [show (Renaming.throughout π).routine (π.symm callee) = callee from
        π.apply_symm_apply callee,
        (h.routine?_eq_none hplain hold).1] at hrename
      rw [hrename, (h.routine?_eq_none hplain hcallee).2]
      rfl
  constant? label := by
    have hρ := (Renaming.throughout_isInjective π).routine
    have hrename := SymbolTable.constant?_rename hρ a.symbols (π.symm label)
    have hlabel := h.texts (π.symm label)
    rw [π.apply_symm_apply] at hlabel
    rw [show (Renaming.throughout π).routine (π.symm label) = label from
      π.apply_symm_apply label] at hrename
    exact hlabel.trans hrename.symm

/-- **A run goes alike up to names.** -/
theorem run_eq (limit : Option Nat) (horizon : Nat) (input : List Int64) :
    b.run limit horizon (.fresh input)
      = (a.run limit horizon (.fresh input)).map (Prod.map
        (Outcome.rename ⟨π, π⟩) (Session.rename (.throughout π))) := by
  rw [← run_of_isSeenAs b.isSeenAs_seen, run_of_isSeenAs (h.isSeenAs hplain)]
  obtain ⟨_, hrun⟩ := @run_rename (.throughout π) a limit
    (Renaming.throughout_isInjective π) horizon (.fresh input)
  exact hrun

end Assembly.SameUpTo

/-! ## What a run tells -/

/-- **What a run tells**: how it ends, what it has not read, what it has
written, how many steps it has taken, and which calls it has made. -/
structure Account where
  /-- How it ends. -/
  outcome : Outcome
  /-- The integers that it has not read. -/
  input : List Int64
  /-- The text that it has written. -/
  output : String
  /-- The steps that were counted. -/
  steps : Nat
  /-- The calls with their arguments, in order. -/
  calls : List Event
  deriving DecidableEq

/-- What a run tells that has ended. -/
def Account.of (result : Outcome × Session) : Account where
  outcome := result.1
  input := result.2.input
  output := result.2.output
  steps := result.2.steps
  calls := result.2.events.filter Event.isCall

/-- The calls of routines with plain names are told alike. -/
theorem Session.filter_isCall_rename {π : Equiv.Perm String}
    (hπ : ∀ name, Ident.Plain name → π name = name) {s : Session}
    (hs : s.Calls Ident.Plain) :
    (s.rename (.throughout π)).events.filter Event.isCall
      = s.events.filter Event.isCall := by
  have hkind : Event.isCall ∘ Event.rename (.throughout π)
      = Event.isCall := by
    funext event
    cases event <;> rfl
  have hlog : (s.rename (.throughout π)).events
      = s.events.map (Event.rename (.throughout π)) := List.map_reverse.symm
  rw [hlog, List.filter_map, hkind]
  refine (List.map_congr_left fun event hevent => ?_).trans (List.map_id _)
  obtain ⟨hmem, hcall⟩ := List.mem_filter.mp hevent
  cases event with
  | call routine args =>
    have hplain := hs routine args (List.mem_reverse.mp hmem)
    exact congrArg (Event.call · args) (hπ routine hplain)
  | step => cases hcall

/-! ## Ends of programs in another order -/

/-- A crash and the end at a limit show no name. -/
theorem Outcome.rename_eq_self {ν : Names} (outcome : Outcome)
    (h : outcome.rename ν = .crashed
      ∨ ∃ limit, outcome.rename ν = .failed (.stepLimit limit)) :
    outcome.rename ν = outcome := by
  cases outcome with
  | finished | crashed => rfl
  | failed error =>
    rcases h with h | ⟨limit, h⟩
    · cases h
    · cases error <;> first | rfl | cases h

namespace Program.IsReordering

variable {p q : Program Span}

theorem ends (h : p.IsReordering q)
    (hnodup : (p.definitions.map Definition.name).Nodup) {w w' : World}
    {outcome : Outcome} (hends : q.Ends w outcome w') :
    p.Ends w outcome w' := by
  cases hends with
  | finished hexec => exact .finished (h.exec_eq hnodup _ ▸ hexec)
  | failed hexec => exact .failed (h.exec_eq hnodup _ ▸ hexec)

/-- **A run ends in no error that shows a name which was made up**: under new
names it is a run of the program in another order, and it ends as that
program ends. -/
theorem rename_outcome (h : p.IsReordering q) {a b : Assembly}
    (hp : p.compile = .ok a) (hq : q.compile = .ok b)
    (hplain : p.HasPlainNames) {ν : Names} {limit : Option Nat}
    {horizon : Nat} {s s₁ s₂ : Session} {outcome : Outcome}
    (hrun : a.run limit horizon s = some (outcome, s₁))
    (hrun' : b.run limit horizon s = some (outcome.rename ν, s₂)) :
    outcome.rename ν = outcome := by
  have hnodup := (wellTyped_of_compile hp).distinct
  rcases follow_limit hrun with ⟨l, -, rfl⟩ | hafter
  · rfl
  rcases crashes_or_settles hp hplain s with ⟨-, n, s', hcrash⟩ | hsettles
  · rw [(after_unique hafter hcrash).1]
    rfl
  have hends := ends_of_after hsettles hafter
  rcases follow_limit hrun' with ⟨l, -, hlimit⟩ | hafter'
  · exact outcome.rename_eq_self (.inr ⟨l, hlimit⟩)
  rcases crashes_or_settles hq (h.hasPlainNames hplain) s with
    ⟨-, n, s', hcrash⟩ | hsettles'
  · exact outcome.rename_eq_self (.inl (after_unique hafter' hcrash).1)
  · have hends' := h.ends hnodup (ends_of_after hsettles' hafter')
    exact ((Agrees.of_settles hsettles).ends_unique hends' hends).1

/-- **The runs tell the same** if the code is the same up to names: neither
the outcome nor the calls show a name that was made up. -/
theorem account_eq (h : p.IsReordering q) {a b : Assembly}
    (hp : p.compile = .ok a) (hq : q.compile = .ok b)
    (hplain : p.HasPlainNames) {π : Equiv.Perm String}
    (hsame : a.SameUpTo π b) (hnames : ∀ r ∈ a.bodies, r.HasPlainNames)
    (limit : Option Nat) (horizon : Nat) (input : List Int64) :
    (b.run limit horizon (.fresh input)).map Account.of
      = (a.run limit horizon (.fresh input)).map Account.of := by
  have hrun' := hsame.run_eq hnames limit horizon input
  rw [hrun', Option.map_map]
  cases hrun : a.run limit horizon (.fresh input) with
  | none => rfl
  | some result =>
    obtain ⟨outcome, s⟩ := result
    rw [hrun] at hrun'
    have houtcome := h.rename_outcome hp hq hplain hrun hrun'
    obtain ⟨hroutines, hmain⟩ := List.forall_mem_append.mp hnames
    have hcalls := Assembly.calls_of_run
      (List.forall_mem_singleton.mp hmain).name
      (fun r hr => (hroutines r hr).name) hrun
    refine congrArg some ?_
    exact congrArg₂ (Account.mk · _ _ _ ·) houtcome
      (s.filter_isCall_rename hsame.plain hcalls)

end Program.IsReordering

/-! ## The theorem -/

/-- The routines of a checked program have plain names if the program has. -/
theorem TypedProgram.EmittedAs.hasPlainNames {typed : TypedProgram}
    {a : Assembly} (h : typed.EmittedAs a) {p : Program Span}
    (hcheck : p.check = .ok typed) (hplain : typed.program.HasPlainNames) :
    ∀ r ∈ a.bodies, r.HasPlainNames := by
  intro r hr
  obtain ⟨d, hd, hemitted⟩ := h.exists_body hcheck hr
  have hname : r.name = d.name := congrArg Prototype.name hemitted.prototype
  have hparams : r.prototype.params = d.params :=
    congrArg Prototype.params hemitted.prototype
  exact ⟨hname ▸ hplain.bodies d hd, hparams ▸ hplain.params hd⟩

/-- **The order of definitions does not matter.** A program in another order
passes the check if the program does. If it does and its names are plain, both
are compiled, to a routine for each definition and one for the main script,
and these are the same in both orders, up to one permutation of the names that
were made up. For every input, step limit and horizon the runs tell the same.
-/
theorem Program.compile_reordered {p q : Program Span}
    (h : p.IsReordering q) :
    ((∃ typed, q.check = .ok typed) ↔ ∃ typed, p.check = .ok typed)
      ∧ ((∃ typed, p.check = .ok typed) → p.HasPlainNames →
        ∃ a b π, p.compile = .ok a ∧ q.compile = .ok b
          ∧ a.routines.map Routine.name = p.definitions.map Definition.name
          ∧ a.SameUpTo π b ∧ ∀ limit horizon input,
            (b.run limit horizon (.fresh input)).map Account.of
              = (a.run limit horizon (.fresh input)).map Account.of) := by
  refine ⟨⟨fun ⟨_, hcheck⟩ => ?_, fun ⟨_, hcheck⟩ => ?_⟩, ?_⟩
  · obtain ⟨typed, hcheck, -⟩ := h.symm.check hcheck
    exact ⟨typed, hcheck⟩
  · obtain ⟨typed, hcheck, -⟩ := h.check hcheck
    exact ⟨typed, hcheck⟩
  rintro ⟨typed, hcheck⟩ hplain
  obtain ⟨typed', hcheck', hreordering⟩ := h.check hcheck
  have hplain' := h.hasPlainNames hplain
  obtain ⟨a, hemit⟩ := exists_emit_of_check hcheck
    fun d hd => (hplain.definitions d hd).2
  obtain ⟨b, hemit'⟩ := exists_emit_of_check hcheck'
    fun d hd => (hplain'.definitions d hd).2
  have hcompile := compile_eq_ok.mpr ⟨typed, hcheck, hemit⟩
  have hcompile' := compile_eq_ok.mpr ⟨typed', hcheck', hemit'⟩
  have herase := (check_sound hcheck).erase
  have htyped : typed.program.HasPlainNames := .of_erase (herase ▸ hplain)
  have htyped' : typed'.program.HasPlainNames :=
    .of_erase ((check_sound hcheck').erase ▸ hplain')
  have ha := TypedProgram.emittedAs_of_emit hcheck htyped hemit
  have hb := TypedProgram.emittedAs_of_emit hcheck' htyped' hemit'
  obtain ⟨π, hsame⟩ :=
    hreordering.exists_sameUpTo hcheck hcheck' htyped ha hb
  have hnames := ha.hasPlainNames hcheck htyped
  refine ⟨a, b, π, hcompile, hcompile', ?_, hsame, ?_⟩
  · rw [ha.map_name_routines.1, ← herase]
    exact (Definition.map_name_erase _).symm
  exact h.account_eq hcompile hcompile' hplain hsame hnames

/-- The program with its definitions in the opposite order. -/
def Program.reversed {α : Type} (p : Program α) : Program α :=
  { p with definitions := p.definitions.reverse }

theorem Program.isReordering_reversed {α : Type} (p : Program α) :
    p.IsReordering p.reversed := ⟨List.reverse_perm _, rfl⟩

/-- A program that greets with a number, which one definition computes and the
other one prints. -/
def Program.greeting : Program Span where
  definitions := [
    { name := "greet"
      params := [("n", .int)]
      ret := .unit
      body := .spanning [
        .print .origin [.lit .origin (.str "hello"), .var .origin "n"],
        .retUnit .origin]
      nameSpan := .origin },
    { name := "twice"
      params := [("n", .int)]
      ret := .int
      body := .spanning [.ret .origin (.binary .origin (.arith .add)
        (.var .origin "n") (.var .origin "n"))]
      nameSpan := .origin }]
  main := .spanning [.call .origin "greet"
    [.call .origin "twice" [.lit .origin (.int 21)]]]

/-- The greeting program is compiled to the same in the opposite order. -/
theorem Program.compile_reordered_greeting :
    (∃ typed, greeting.reversed.check = .ok typed)
      ∧ greeting.HasPlainNames
      ∧ ∃ a b π, greeting.compile = .ok a ∧ greeting.reversed.compile = .ok b
        ∧ a.routines.map Routine.name = ["greet", "twice"]
        ∧ a.SameUpTo π b ∧ ∀ limit horizon input,
          (b.run limit horizon (.fresh input)).map Account.of
            = (a.run limit horizon (.fresh input)).map Account.of := by
  have hok : greeting.check.toOption.isSome = true := by decide +kernel
  have hcheck : ∃ typed, greeting.check = .ok typed := by
    cases hcheck : greeting.check with
    | error e => simp [hcheck, Except.toOption] at hok
    | ok typed => exact ⟨typed, rfl⟩
  have hplain : greeting.HasPlainNames := ⟨by decide, by decide, by decide⟩
  obtain ⟨hchecks, hcompiles⟩ :=
    compile_reordered (isReordering_reversed greeting)
  exact ⟨hchecks.mpr hcheck, hplain, hcompiles hcheck hplain⟩

/-- What a definition of a program is compiled to. -/
def Program.codeOf? (p : Program Span) (name : Ident) : Option Code :=
  p.compile.toOption.bind fun a => (a.routine? name).map Routine.code

/-- It has other names in the opposite order. -/
example : Program.greeting.codeOf? "twice"
    ≠ Program.greeting.reversed.codeOf? "twice" := by decide +kernel

end Primer
