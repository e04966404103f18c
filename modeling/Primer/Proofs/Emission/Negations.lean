import Primer.Proofs.Emission.Alike
import Primer.Proofs.Typing.Rules

/-!
# Negations cost nothing

A condition is put together from *tests* by connectives and negations. In its
*normal form* (`Expr.nnf`) the negations have been pushed inwards to the
tests, which exchanges connectives on the way, and no test has more than one.

The code for a condition is that for its normal form, instruction by
instruction, but for what some labels are called: the label of an `and` that
became an `or` has another hint, and the same number
(`Expr.negations_are_free`). This is proved along a condition with the number
of negations around it, odd or even. If it is odd, the one side gets its two
labels the other way round, and exchanges its connectives. Where the first
operand goes if it leaves the matter open is then the same on both sides
(`Connective.ifTrue_dual`).

What code there is belongs to the tests: their pieces follow one another with
one label between two, and there are as many labels as connectives
(`Expr.emitCondition_pieces`).
-/

namespace Primer

open SymbolTable Text

/-! ## Normal forms -/

/-- **The connective that negation makes of a connective.** -/
def Connective.dual : Connective → Connective
  | and => or
  | or => and

/-- A connective, or what negation makes of it. -/
def Connective.turned (op : Connective) (negated : Bool) : Connective :=
  if negated then op.dual else op

namespace Expr

/-- **Whether an expression is a test**: as a condition, it is neither a
negation nor put together by a connective. -/
def isTest {α : Type} : Expr α → Bool
  | binary _ (.logic _) _ _ | not _ _ => false
  | lit _ _ | var _ _ | binary _ (.arith _) _ _ | binary _ (.compare _) _ _
  | input _ _ | convert _ _ _ | call _ _ _ => true

/-- **The normal form of a condition or of its negation.** -/
def pushed : Bool → Expr Judged → Expr Judged
  | negated, binary note (.logic op) lhs rhs =>
    binary note (.logic (op.turned negated))
      (pushed negated lhs) (pushed negated rhs)
  | negated, not _ operand => pushed (!negated) operand
  | true, e => not ⟨e.span, .bool⟩ e
  | false, e => e

/-- **The normal form of a condition**: negations are pushed inwards, two of
them cancel, and one is left where it meets a test. -/
def nnf (e : Expr Judged) : Expr Judged := e.pushed false

/-- Whether a condition has no negations but of tests. -/
def IsNormal : Expr Judged → Prop
  | binary _ (.logic _) lhs rhs => IsNormal lhs ∧ IsNormal rhs
  | not _ operand => operand.isTest = true
  | _ => True

/-- The tests of a condition, from left to right. -/
def tests : Expr Judged → List (Expr Judged)
  | binary _ (.logic _) lhs rhs => tests lhs ++ tests rhs
  | not _ operand => tests operand
  | e => [e]

/-- How many connectives put a condition together. -/
def connectives : Expr Judged → Nat
  | binary _ (.logic _) lhs rhs => connectives lhs + connectives rhs + 1
  | not _ operand => connectives operand
  | _ => 0

/-- **A condition is a test, or it is put together or negated.** -/
@[elab_as_elim]
theorem condition_induction {motive : Expr Judged → Prop}
    (test : ∀ e : Expr Judged, e.isTest = true → motive e)
    (logic : ∀ note op lhs rhs, motive lhs → motive rhs →
      motive (binary note (.logic op) lhs rhs))
    (not : ∀ note operand, motive operand → motive (.not note operand))
    (e : Expr Judged) : motive e := by
  match e with
  | .binary note (.logic op) lhs rhs =>
    exact logic note op lhs rhs (condition_induction test logic not lhs)
      (condition_induction test logic not rhs)
  | .not note operand =>
    exact not note operand (condition_induction test logic not operand)
  | .lit _ _ | .var _ _ | .binary _ (.arith _) _ _
  | .binary _ (.compare _) _ _ | .input _ _ | .convert _ _ _ | .call _ _ _ =>
    exact test _ rfl

section Tests

variable {e : Expr Judged}

theorem pushed_of_isTest (h : e.isTest = true) (negated : Bool) :
    e.pushed negated = if negated then .not ⟨e.span, .bool⟩ e else e := by
  cases negated <;> cases e with
  | binary _ op => cases op <;> first | rfl | cases h
  | not => cases h
  | lit | var | input | convert | call => rfl

theorem isNormal_of_isTest (h : e.isTest = true) : e.IsNormal := by
  cases e with
  | binary _ op => cases op <;> trivial
  | not => cases h
  | lit | var | input | convert | call => trivial

theorem tests_of_isTest (h : e.isTest = true) : e.tests = [e] := by
  cases e with
  | binary _ op => cases op <;> first | rfl | cases h
  | not => cases h
  | lit | var | input | convert | call => rfl

theorem connectives_of_isTest (h : e.isTest = true) : e.connectives = 0 := by
  cases e with
  | binary _ op => cases op <;> first | rfl | cases h
  | not => cases h
  | lit | var | input | convert | call => rfl

end Tests

/-- **What is left of the negations is at the tests.** -/
theorem isNormal_pushed (e : Expr Judged) (negated : Bool) :
    (e.pushed negated).IsNormal := by
  induction e using condition_induction generalizing negated with
  | test e h =>
    rw [pushed_of_isTest h]
    cases negated with
    | true => exact h
    | false => exact isNormal_of_isTest h
  | logic note op lhs rhs ihl ihr => exact ⟨ihl negated, ihr negated⟩
  | not note operand ih => exact ih (!negated)

/-- **The tests are the same**, up to one negation. -/
theorem tests_pushed (e : Expr Judged) (negated : Bool) :
    (e.pushed negated).tests = e.tests := by
  induction e using condition_induction generalizing negated with
  | test e h =>
    rw [pushed_of_isTest h]
    cases negated <;> rfl
  | logic note op lhs rhs ihl ihr =>
    rw [pushed, tests, ihl, ihr, tests]
  | not note operand ih => exact ih (!negated)

/-- A normal form converts the none value where the condition does. -/
theorem unconvertible?_pushed (e : Expr Judged) (negated : Bool) :
    (e.pushed negated).unconvertible? = e.unconvertible? := by
  induction e using condition_induction generalizing negated with
  | test e h =>
    rw [pushed_of_isTest h]
    cases negated <;> rfl
  | logic note op lhs rhs ihl ihr =>
    rw [pushed, unconvertible?, ihl, ihr, unconvertible?]
  | not note operand ih => exact ih (!negated)

/-- A normal form of a condition that is typed is typed. -/
theorem hasType_pushed {sigs : Signatures} {Γ : Context} (e : Expr Judged)
    (negated : Bool) (h : e.HasType sigs Γ .bool) :
    (e.pushed negated).HasType sigs Γ .bool := by
  induction e using condition_induction generalizing negated with
  | test e htest =>
    rw [pushed_of_isTest htest]
    cases negated with
    | true => exact .not rfl h
    | false => exact h
  | logic note op lhs rhs ihl ihr =>
    cases h with
    | logic hnote hlhs hrhs => exact .logic hnote (ihl _ hlhs) (ihr _ hrhs)
  | not note operand ih =>
    cases h with
    | not _ hoperand => exact ih (!negated) hoperand

end Expr

/-! ## The code of a condition -/

namespace Connective

/-- What the label of a connective is called. -/
def hint : Connective → String
  | and => "and"
  | or => "or"

/-- **The label of a connective** with a number. -/
def label (op : Connective) (n : Nat) : Label :=
  "." ++ op.hint ++ Decimal.ofNat n

/-- Where the first operand goes if it holds. -/
def ifTrue : Connective → Label → Label → Label
  | and, next, _ => next
  | or, _, yes => yes

/-- Where the first operand goes if it does not hold. -/
def ifFalse : Connective → Label → Label → Label
  | and, _, no => no
  | or, next, _ => next

theorem ifTrue_dual (op : Connective) (next l : Label) :
    op.dual.ifTrue next l = op.ifFalse next l := by
  cases op <;> rfl

theorem ifFalse_dual (op : Connective) (next l : Label) :
    op.dual.ifFalse next l = op.ifTrue next l := by
  cases op <;> rfl

theorem made_label (op : Connective) (n : Nat) :
    Made n (n + 1) (op.label n) := by
  cases op <;> exact .single (.point (by simp [hint])) n

theorem mem_range_of_made {op : Connective} {n lo hi : Nat}
    (h : Made lo hi (op.label n)) : lo ≤ n ∧ n < hi := by
  have hlo := (op.made_label n).disjoint h
  exact ⟨Nat.le_of_lt_succ hlo, h.disjoint (op.made_label n)⟩

end Connective

namespace Expr

variable {site : Site} {t : SymbolTable}

/-- **The code of a connective**: its label is taken first, and stands between
the operands. -/
theorem run_emit_logic (note : Judged) (op : Connective)
    (lhs rhs : Expr Judged) (yes no : Label) :
    ((binary note (.logic op) lhs rhs).emit site (.branch yes no)).run t
      = let next := t.freshLabel site.scope (some op.hint)
        let first := (lhs.emit site (.branch (op.ifTrue next.1 yes)
          (op.ifFalse next.1 no))).run next.2
        let second := (rhs.emit site (.branch yes no)).run first.2
        (first.1 ++ [.label next.1] ++ second.1, second.2) := by
  cases op <;> rfl

/-- The code of a comparison. -/
theorem run_emit_compare (note : Judged) (op : Comparison)
    (lhs rhs : Expr Judged) (yes no : Label) :
    ((binary note (.compare op) lhs rhs).emit site (.branch yes no)).run t
      = let left := t.freshTemporary site.scope lhs.ty
        let first := (lhs.emit site (.store left.1)).run left.2
        let right := first.2.freshTemporary site.scope rhs.ty
        let second := (rhs.emit site (.store right.1)).run right.2
        (first.1 ++ second.1 ++ [.branchCompare op left.1 right.1 yes no],
          second.2) := rfl

/-- The code of a test that stores its value. -/
theorem run_emit_stored {e : Expr Judged} (h : e.isStored = true)
    (yes no : Label) :
    (e.emit site (.branch yes no)).run t
      = let temp := t.freshTemporary site.scope e.ty
        let value := (e.emit site (.store temp.1)).run temp.2
        (value.1 ++ [.branchZero .zero temp.1 no yes], value.2) := by
  cases e with
  | lit _ value => cases value <;> first | rfl | cases h
  | binary _ op => cases op <;> first | rfl | cases h
  | var | not => cases h
  | input | convert | call => rfl

end Expr

/-! ## Labels that are exchanged -/

/-- **What a label is called in the code for the normal form**: a label that
was given is what was given for it, and one with a number from `lo` to `hi` is
the same, unless its number is among those that are exchanged. Then it is that
of a connective, and becomes that of the other. -/
inductive Label.Counterpart (given : List (Label × Label)) (lo hi : Nat)
    (exchanged : List Nat) : Label → Label → Prop
  /-- It was given. -/
  | given {l l' : Label} (h : (l, l') ∈ given) :
    Counterpart given lo hi exchanged l l'
  /-- It is the same. -/
  | kept {l : Label} (hmade : Made lo hi l)
      (hne : ∀ n ∈ exchanged, ∀ op : Connective, l ≠ op.label n) :
    Counterpart given lo hi exchanged l l
  /-- It is that of a connective that was exchanged. -/
  | exchanged (op : Connective) {n : Nat} (h : n ∈ exchanged) :
    Counterpart given lo hi exchanged (op.label n) (op.dual.label n)

/-- **Two instructions are the same but for labels**, which are related. -/
def Instr.SameBut (R : Label → Label → Prop) : Instr → Instr → Prop
  | label l, label l' => R l l'
  | jump l, jump l' => R l l'
  | branchCompare op lhs rhs yes no, branchCompare op' lhs' rhs' yes' no' =>
    op = op' ∧ lhs = lhs' ∧ rhs = rhs' ∧ R yes yes' ∧ R no no'
  | branchZero test src yes no, branchZero test' src' yes' no' =>
    test = test' ∧ src = src' ∧ R yes yes' ∧ R no no'
  | i, i' => i = i'

namespace Instr.SameBut

variable {R S : Label → Label → Prop}

/-- More labels may be related. -/
theorem mono (h : ∀ l l', R l l' → S l l') {i i' : Instr}
    (hi : i.SameBut R i') : i.SameBut S i' := by
  cases i <;> cases i' <;>
    first
    | exact hi
    | exact h _ _ hi
    | exact ⟨hi.1, hi.2.1, h _ _ hi.2.2.1, h _ _ hi.2.2.2⟩
    | exact ⟨hi.1, hi.2.1, hi.2.2.1, h _ _ hi.2.2.2.1, h _ _ hi.2.2.2.2⟩

/-- An instruction is the same as itself, if its labels are related to
themselves. -/
theorem refl {i : Instr} (hlabel : ∀ l, i.label? = some l → R l l)
    (htargets : ∀ l ∈ i.targets, R l l) : i.SameBut R i := by
  cases i with
  | label l => exact hlabel l rfl
  | jump l => exact htargets l (List.mem_singleton_self l)
  | branchCompare _ _ _ yes no =>
    exact ⟨rfl, rfl, rfl, htargets yes (by simp [targets]),
      htargets no (by simp [targets])⟩
  | branchZero _ _ yes no =>
    exact ⟨rfl, rfl, htargets yes (by simp [targets]),
      htargets no (by simp [targets])⟩
  | _ => rfl

end Instr.SameBut

/-- Code is the same as itself, if its labels are related to themselves and it
goes to no others. -/
theorem Code.sameBut_refl {R : Label → Label → Prop} {code : Code}
    (hinner : code.Inner []) (h : ∀ l ∈ code.labels, R l l) :
    List.Forall₂ (Instr.SameBut R) code code := by
  refine List.forall₂_same.mpr fun i hi => .refl (fun l hl => ?_) fun l hl => ?_
  · exact h l (List.mem_filterMap.mpr ⟨i, hi, hl⟩)
  · have htarget := hinner.targets l (List.mem_flatMap.mpr ⟨i, hi, hl⟩)
    exact h l (htarget.resolve_right List.not_mem_nil)

namespace Label.Counterpart

variable {given given' : List (Label × Label)} {lo hi lo' hi' : Nat}
  {exchanged exchanged' : List Nat}

/-- **What holds for a part of the code holds for all of it**, if the numbers
that are exchanged elsewhere are not those of the part. -/
theorem mono {l l' : Label}
    (h : Counterpart given lo hi exchanged l l')
    (hgiven : ∀ l l', (l, l') ∈ given →
      Counterpart given' lo' hi' exchanged' l l')
    (hlo : lo' ≤ lo) (hhi : hi ≤ hi') (hsub : exchanged ⊆ exchanged')
    (hnew : ∀ n ∈ exchanged', n ∈ exchanged ∨ n < lo ∨ hi ≤ n) :
    Counterpart given' lo' hi' exchanged' l l' := by
  cases h with
  | given h => exact hgiven _ _ h
  | exchanged op h => exact .exchanged op (hsub h)
  | kept hmade hne =>
    refine .kept (hmade.mono hlo hhi) fun n hn op heq => ?_
    rw [heq] at hmade
    have hrange := Connective.mem_range_of_made hmade
    rcases hnew n hn with hn | hn | hn
    · exact hne n hn op heq
    · exact Nat.not_lt.mpr hrange.1 hn
    · exact Nat.not_lt.mpr hn hrange.2

/-- The label of a connective corresponds to that of the connective that it
becomes, if all other numbers that are exchanged are greater. -/
theorem next (given : List (Label × Label)) (op : Connective)
    {n hi : Nat} {exchanged : List Nat} (hhi : n < hi)
    (hlater : ∀ m ∈ exchanged, n < m) (negated : Bool) :
    Counterpart given n hi
      ((if negated then [n] else []) ++ exchanged) (op.label n)
      ((op.turned negated).label n) := by
  cases negated with
  | true => exact .exchanged op (List.mem_cons_self ..)
  | false =>
    refine .kept ((op.made_label n).mono le_rfl hhi) fun m hm op' heq => ?_
    have hmade := op.made_label n
    rw [heq] at hmade
    have hrange := Connective.mem_range_of_made hmade
    exact Nat.not_lt.mpr (Nat.le_of_lt_succ hrange.2) (hlater m hm)

end Label.Counterpart

/-! ## Pushing negations inwards -/

/-- The two labels of a condition, the other way round for its negation. -/
def Destination.turned (negated : Bool) (yes no : Label) : Destination :=
  .branch (if negated then no else yes) (if negated then yes else no)

/-- **Two results of emission that correspond**: over tables that are alike,
the code is the same but for labels, given two labels on each side. -/
structure Emit.Correspond (given : List (Label × Label)) (t : SymbolTable)
    (x y : Code × SymbolTable) : Prop where
  /-- The tables afterwards are alike. -/
  tables : x.2.Alike y.2
  /-- The code is the same, but for labels that were made in between. -/
  code : ∃ exchanged : List Nat,
    (∀ n ∈ exchanged, t.counter ≤ n ∧ n < x.2.counter)
    ∧ List.Forall₂ (Instr.SameBut
      (Label.Counterpart given t.counter x.2.counter exchanged)) x.1 y.1

/-- **Two operands that correspond** do so with the label of the connective
between them. -/
theorem Emit.Correspond.logic {given given' : List (Label × Label)}
    {t t₁ : SymbolTable} {x y x' y' : Code × SymbolTable} {op : Connective}
    {negated : Bool} (h : Emit.Correspond given' t₁ x y)
    (h' : Emit.Correspond given x.2 x' y')
    (hcounter : t₁.counter = t.counter + 1) (hx : t₁.counter ≤ x.2.counter)
    (hx' : x.2.counter ≤ x'.2.counter)
    (hgiven : ∀ l l', (l, l') ∈ given' → (l, l') ∈ given
      ∨ l = op.label t.counter
        ∧ l' = (op.turned negated).label t.counter) :
    Emit.Correspond given t
      (x.1 ++ [.label (op.label t.counter)] ++ x'.1, x'.2)
      (y.1 ++ [.label ((op.turned negated).label t.counter)] ++ y'.1,
        y'.2) := by
  obtain ⟨-, exchanged, hrange, hcode⟩ := h
  obtain ⟨hlast, exchanged', hrange', hcode'⟩ := h'
  have hlater : ∀ m ∈ exchanged ++ exchanged', t.counter < m
      ∧ m < x'.2.counter := by
    intro m hm
    rcases List.mem_append.mp hm with hm | hm
    · have := hrange m hm
      omega
    · have := hrange' m hm
      omega
  have hlt : t.counter < x'.2.counter := by omega
  have hnext := Label.Counterpart.next given op hlt
    (fun m hm => (hlater m hm).1) negated
  -- the numbers of the three pieces are in three ranges
  have hown : ∀ m ∈ (if negated then [t.counter] else []), m = t.counter := by
    cases negated <;> simp
  refine ⟨hlast, (if negated then [t.counter] else [])
    ++ (exchanged ++ exchanged'), ?_, ?_⟩
  · intro m hm
    show t.counter ≤ m ∧ m < x'.2.counter
    rcases List.mem_append.mp hm with hm | hm
    · have := hown m hm
      omega
    · have := hlater m hm
      omega
  · refine List.rel_append (List.rel_append (hcode.imp fun i i' hi => ?_)
      (.cons hnext .nil)) (hcode'.imp fun i i' hi => ?_)
    · refine hi.mono fun l l' hl => hl.mono (fun l l' hmem => ?_) (by omega)
        hx' (by simp) fun m hm => ?_
      · rcases hgiven l l' hmem with hmem | ⟨rfl, rfl⟩
        · exact .given hmem
        · exact hnext
      · simp only [List.mem_append] at hm
        rcases hm with hm | hm | hm
        · have := hown m hm
          omega
        · exact .inl hm
        · have := hrange' m hm
          omega
    · refine hi.mono fun l l' hl => hl.mono (fun l l' => .given) (by omega)
        le_rfl (by simp) fun m hm => ?_
      simp only [List.mem_append] at hm
      rcases hm with hm | hm | hm
      · have := hown m hm
        omega
      · have := hrange m hm
        omega
      · exact .inl hm

namespace Expr

variable {site : Site} {t u : SymbolTable}

/-- **The code of a test** ends in the one instruction that has the labels. -/
theorem run_emit_test {e : Expr Judged} (h : e.isTest = true) (site : Site)
    (t : SymbolTable) :
    ∃ (code : Code) (last : Label → Label → Instr) (t' : SymbolTable),
      code.Inner []
      ∧ (∀ (R : Label → Label → Prop) yes no yes' no', R yes yes' → R no no' →
        (last yes no).SameBut R (last yes' no'))
      ∧ ∀ yes no, (e.emit site (.branch yes no)).run t
        = (code ++ [last yes no], t') := by
  cases hstored : e.isStored with
  | true =>
    refine ⟨_, fun yes no => .branchZero .zero _ no yes, _, ?_, ?_,
      run_emit_stored hstored⟩
    · exact (e.emits site (.store _) _).inner
    · exact fun R _ _ _ _ hyes hno => ⟨rfl, rfl, hno, hyes⟩
  | false =>
    cases e with
    | lit _ value =>
      cases value with
      | bool b =>
        refine ⟨[], fun yes no => .jump (if b then yes else no), t, .nil, ?_,
          fun _ _ => rfl⟩
        intro R _ _ _ _ hyes hno
        cases b with
        | true => exact hyes
        | false => exact hno
      | int | str | unit => cases hstored
    | var _ name =>
      exact ⟨[], .branchZero .nonZero name, t, .nil,
        fun _ _ _ _ _ hyes hno => ⟨rfl, rfl, hyes, hno⟩, fun _ _ => rfl⟩
    | binary _ op lhs rhs =>
      cases op with
      | arith => cases hstored
      | logic => cases h
      | compare op =>
        refine ⟨_, .branchCompare op _ _, _, ?_, ?_,
          run_emit_compare _ op lhs rhs⟩
        · refine Code.Inner.append ?_ ?_
          · exact (lhs.emits site (.store _) _).inner
          · exact (rhs.emits site (.store _) _).inner
        · exact fun _ _ _ _ _ hyes hno => ⟨rfl, rfl, rfl, hyes, hno⟩
    | not => cases h
    | input | convert | call => cases hstored

theorem emit_pushed_of_isTest {e : Expr Judged} (h : e.isTest = true)
    (negated : Bool) (yes no : Label) :
    (e.pushed negated).emit site (.turned negated yes no)
      = e.emit site (.branch yes no) := by
  rw [pushed_of_isTest h]
  cases negated <;> rfl

/-- **The code of a test corresponds to itself**, over tables that are alike.
-/
theorem correspond_of_isTest {e : Expr Judged} (h : e.isTest = true)
    (htables : t.Alike u) (yes no yes' no' : Label) :
    Emit.Correspond [(yes, yes'), (no, no')] t
      ((e.emit site (.branch yes no)).run t)
      ((e.emit site (.branch yes' no')).run u) := by
  obtain ⟨code, last, t', hinner, hlast, hrun⟩ := run_emit_test h site t
  obtain ⟨hcode, hlasts⟩ := e.emit_alike site (.branch yes' no') site.scope
    htables
  rw [hrun] at hcode hlasts
  rw [hrun yes no]
  refine ⟨hlasts, [], nofun, ?_⟩
  have hmade : ∀ l ∈ code.labels, Made t.counter t'.counter l := by
    intro l hl
    have hmade : l ∈ ((e.emit site (.branch yes no)).run t).1.labels →
        Made t.counter ((e.emit site (.branch yes no)).run t).2.counter l :=
      made_of_mem_labels
    rw [hrun, Code.labels_append] at hmade
    exact hmade (List.mem_append_left _ hl)
  rw [hcode]
  refine List.rel_append (Code.sameBut_refl hinner fun l hl => ?_)
    (.cons (hlast _ _ _ _ _ ?_ ?_) .nil)
  · exact .kept (hmade l hl) nofun
  · exact .given (by simp)
  · exact .given (by simp)

/-- The labels of the first operand, turned, are those that the connective
gives it that the connective becomes. -/
theorem turned_first (op : Connective) (negated : Bool)
    (next yes no : Label) :
    Destination.turned negated (op.ifTrue next yes) (op.ifFalse next no)
      = .branch
        ((op.turned negated).ifTrue next (if negated then no else yes))
        ((op.turned negated).ifFalse next (if negated then yes else no)) := by
  cases negated with
  | false => rfl
  | true =>
    exact congrArg₂ Destination.branch (op.ifTrue_dual next no).symm
      (op.ifFalse_dual next yes).symm

/-- **The code of a condition corresponds to that of its normal form**, with
the labels the other way round for its negation. -/
theorem correspond_pushed (e : Expr Judged) (site : Site) (negated : Bool)
    (htables : t.Alike u) (yes no yes' no' : Label) :
    Emit.Correspond [(yes, yes'), (no, no')] t
      ((e.emit site (.branch yes no)).run t)
      (((e.pushed negated).emit site (.turned negated yes' no')).run u) := by
  induction e using condition_induction
    generalizing negated t u yes no yes' no' with
  | test e h =>
    rw [emit_pushed_of_isTest h]
    exact correspond_of_isTest h htables yes no yes' no'
  | not note operand ih =>
    -- two negations cancel, and turn the labels twice
    have hturned : Destination.turned negated yes' no'
        = .turned (!negated) no' yes' := by
      cases negated <;> rfl
    rw [hturned]
    obtain ⟨hlast, exchanged, hrange, hcode⟩ :=
      ih (!negated) htables no yes no' yes'
    refine ⟨hlast, exchanged, hrange, hcode.imp fun i i' hi => hi.mono ?_⟩
    refine fun l l' hl => hl.mono (fun l l' hl => .given ?_) le_rfl le_rfl
      (List.Subset.refl _) fun n hn => .inl hn
    exact List.mem_cons.mpr ((List.mem_cons.mp hl).symm.imp_left
      List.mem_singleton.mp |>.imp_right List.mem_singleton.mpr)
  | logic note op lhs rhs ihl ihr =>
    have hnext : (t.freshLabel site.scope (some op.hint)).2.Alike
        (u.freshLabel site.scope (some (op.turned negated).hint)).2 :=
      htables.label _ _
    have hlabel : (u.freshLabel site.scope
        (some (op.turned negated).hint)).1
          = (op.turned negated).label t.counter :=
      congrArg (Connective.label _) htables.counter
    have hfirst := ihl negated hnext (op.ifTrue (op.label t.counter) yes)
      (op.ifFalse (op.label t.counter) no)
      (op.ifTrue ((op.turned negated).label t.counter) yes')
      (op.ifFalse ((op.turned negated).label t.counter) no')
    rw [turned_first] at hfirst
    have hsecond := ihr negated hfirst.tables yes no yes' no'
    rw [pushed, Destination.turned, run_emit_logic, run_emit_logic]
    dsimp only
    rw [hlabel]
    refine hfirst.logic hsecond counter_grown (counter_le_emit _ _)
      (counter_le_emit _ _) fun l l' hmem => ?_
    cases op <;> simp [Connective.ifTrue, Connective.ifFalse] at hmem ⊢ <;>
      tauto

end Expr

/-! ## The pieces of a condition -/

/-- **Code in pieces**: the pieces are the code of tests, in order, and before
each piece but the first there is the label of a connective. -/
def Code.InPieces (site : Site) (tests : List (Expr Judged))
    (connectives : Nat) (code : Code) : Prop :=
  ∃ (first : Code) (rest : List (Label × Code)),
    code = first ++ rest.flatMap (fun p => .label p.1 :: p.2)
    ∧ rest.length = connectives
    ∧ (∀ p ∈ rest, ∃ (op : Connective) (n : Nat), p.1 = op.label n)
    ∧ List.Forall₂ (fun test piece => ∃ yes no t t',
        test.Emits site (.branch yes no) t piece t')
      tests (first :: rest.map Prod.snd)

/-- **Two operands in pieces** are in pieces with the label of their
connective between them. -/
theorem Code.InPieces.logic {site : Site} {tests tests' : List (Expr Judged)}
    {connectives connectives' : Nat} {code code' : Code}
    (h : code.InPieces site tests connectives)
    (h' : code'.InPieces site tests' connectives') (op : Connective)
    (n : Nat) :
    Code.InPieces site (tests ++ tests') (connectives + connectives' + 1)
      (code ++ [.label (op.label n)] ++ code') := by
  obtain ⟨first, rest, rfl, rfl, hlabels, hpieces⟩ := h
  obtain ⟨first', rest', rfl, rfl, hlabels', hpieces'⟩ := h'
  refine ⟨first, rest ++ (op.label n, first') :: rest', ?_, ?_, ?_, ?_⟩
  · rw [List.flatMap_append, List.flatMap_cons, List.append_assoc,
      List.append_assoc]
    rfl
  · rw [List.length_append, List.length_cons]
    rfl
  · intro p hp
    rcases List.mem_append.mp hp with hp | hp
    · exact hlabels p hp
    · rcases List.mem_cons.mp hp with rfl | hp
      · exact ⟨op, n, rfl⟩
      · exact hlabels' p hp
  · rw [List.map_append]
    exact List.rel_append hpieces hpieces'

namespace Expr

/-- **The code of a condition is that of its tests**, with one label for each
connective. -/
theorem inPieces_emitCondition (e : Expr Judged) (site : Site)
    (t : SymbolTable) (yes no : Label) :
    ((e.emitCondition site yes no).run t).1.InPieces site e.tests
      e.connectives := by
  induction e using condition_induction generalizing t yes no with
  | test e h =>
    rw [tests_of_isTest h, connectives_of_isTest h]
    exact ⟨_, [], (List.append_nil _).symm, rfl, nofun,
      .cons ⟨yes, no, t, _, e.emits site _ t⟩ .nil⟩
  | not note operand ih => exact ih t no yes
  | logic note op lhs rhs ihl ihr =>
    rw [emitCondition, run_emit_logic]
    exact (ihl _ _ _).logic (ihr _ _ _) op t.counter

/-- **Negations cost nothing**, and connectives a label each. The code that
branches on a condition is, instruction by instruction, the code that branches
on its normal form, but that some labels `.and` with a number, made on the
way, are labels `.or` with the same number there, and the other way round. The
two convert the none value at the same place or nowhere, and they leave the
same counter and the same texts. The code is that of the tests, one after the
other, with one label for each connective and nothing else. -/
theorem negations_are_free (site : Site) (t : SymbolTable) (e : Expr Judged)
    (ifTrue ifFalse : Label) :
    let given := [(ifTrue, ifTrue), (ifFalse, ifFalse)]
    let x := (e.emitCondition site ifTrue ifFalse).run t
    let y := (e.nnf.emitCondition site ifTrue ifFalse).run t
    e.nnf.IsNormal ∧ e.nnf.tests = e.tests
    ∧ (∀ sigs Γ, e.HasType sigs Γ .bool → e.nnf.HasType sigs Γ .bool)
    ∧ e.nnf.unconvertible? = e.unconvertible?
    ∧ y.1.length = x.1.length
    ∧ (∃ exchanged : List Nat,
      (∀ n ∈ exchanged, t.counter ≤ n ∧ n < x.2.counter)
      ∧ List.Forall₂ (Instr.SameBut
        (Label.Counterpart given t.counter x.2.counter exchanged)) x.1 y.1)
    ∧ y.2.counter = x.2.counter ∧ y.2.constants = x.2.constants
    ∧ x.1.InPieces site e.tests e.connectives := by
  have h := e.correspond_pushed site false (.refl t) ifTrue ifFalse ifTrue
    ifFalse
  obtain ⟨exchanged, hrange, hcode⟩ := h.code
  exact ⟨e.isNormal_pushed false, e.tests_pushed false,
    fun _ _ => e.hasType_pushed false, e.unconvertible?_pushed false,
    hcode.length_eq.symm, ⟨exchanged, hrange, hcode⟩, h.tables.counter,
    h.tables.constants, e.inPieces_emitCondition site t ifTrue ifFalse⟩

/-- The condition `not (a and not b)`. -/
def veiled : Expr Judged :=
  let note : Judged := ⟨.origin, .bool⟩
  .not note (.binary note (.logic .and) (.var note "a")
    (.not note (.var note "b")))

/-- The condition is normally `not a or b`, and the code is the same but for
the one label. -/
theorem negations_are_free_veiled :
    ∃ (site : Site) (t : SymbolTable) (Γ : Context),
      let x := (veiled.emitCondition site ".then1" ".else2").run t
      let y := (veiled.nnf.emitCondition site ".then1" ".else2").run t
      veiled.HasType (fun _ => none) Γ .bool
      ∧ veiled.nnf.HasType (fun _ => none) Γ .bool
      ∧ veiled.connectives = 1
      ∧ x.1 = [.branchZero .nonZero "a" ".and4" ".then1", .label ".and4",
        .branchZero .nonZero "b" ".then1" ".else2"]
      ∧ y.1 = [.branchZero .nonZero "a" ".or4" ".then1", .label ".or4",
        .branchZero .nonZero "b" ".then1" ".else2"]
      ∧ y.2.counter = x.2.counter ∧ y.2.constants = x.2.constants
      ∧ x.1.InPieces site veiled.tests veiled.connectives := by
  let site : Site := ⟨.nested 0, ".done0", ⟨"", "", "", "", ""⟩⟩
  let t : SymbolTable := ⟨.empty "<global>", [.empty "f"], 4⟩
  let Γ : Context := [("a", .bool), ("b", .bool)]
  have hveiled : veiled.HasType (fun _ => none) Γ .bool :=
    .not rfl (.logic rfl (.var rfl (by simp [Γ]))
      (.not rfl (.var rfl (by simp [Γ]))))
  obtain ⟨-, -, htyped, -, -, -, hcounter, hconstants, hpieces⟩ :=
    negations_are_free site t veiled ".then1" ".else2"
  exact ⟨site, t, Γ, hveiled, htyped _ _ hveiled, rfl, by decide, by decide,
    hcounter, hconstants, hpieces⟩

end Expr

end Primer
