import Primer.Proofs.Emission.Labels
import Primer.Proofs.Machine.Control
import Primer.Proofs.Machine.Sights

/-!
# Code for expressions leaves variables alone

The value of an expression is computed in temporaries, and at most it is
stored in the place that is asked for. No instruction in the code of an
expression writes to a variable, unless the value is to be stored there
(`Expr.Emits.sparesVariables`).

So a run in such a piece leaves the variables of its frame as they are, and it
does so at all times, whether it comes to the end of the piece, fails in it or
goes on for ever, and also while a call that was made in the piece is carried
out (`Machine.Leads.keepsVariables`).
-/

namespace Primer

open SymbolTable

/-! ## What an instruction writes to -/

/-- The place that an instruction writes to, if it writes to one. -/
def Instr.dst? : Instr → Option Slot
  | move dst _ | set dst _ | arith _ dst _ _ | fetchResult dst
  | loadString dst _ | readInt dst | intToStr dst _ | strToInt dst _ =>
    some dst
  | label _ | enter | leave | jump _ | branchCompare _ _ _ _ _
  | branchZero _ _ _ _ | setArgument _ _ | call _ | setResult _ | printInt _
  | printString _ | nop => none

/-- **An instruction leaves variables alone**: what it writes to is none. -/
def Instr.SparesVariables (i : Instr) : Prop :=
  ∀ x, i.dst? = some x → ¬ Ident.Plain x

/-- **Other places keep their values** when an instruction is executed. -/
theorem Instr.execute_slots {i : Instr} {symbols : SymbolTable}
    {f f' : Frame} {s s' : Session}
    (h : i.execute symbols f s = .ok (f', s')) {x : Slot}
    (hx : i.dst? ≠ some x) : f'.slots.get? x = f.slots.get? x := by
  have hset {dst : Slot} {g : Frame} (hdst : some dst ≠ some x) (v : Value) :
      (g.set dst v).slots.get? x = g.slots.get? x :=
    Store.get?_set_of_ne _ _ fun heq => hdst (congrArg some heq)
  cases i with
  | label | enter | nop | leave | call =>
    cases pure_eq_ok.mp h
    rfl
  | set =>
    cases pure_eq_ok.mp h
    exact hset hx _
  | move | fetchResult | loadString | intToStr =>
    obtain ⟨_, -, h⟩ := bind_eq_ok.mp h
    cases pure_eq_ok.mp h
    exact hset hx _
  | setResult | printInt | printString =>
    obtain ⟨_, -, h⟩ := bind_eq_ok.mp h
    cases pure_eq_ok.mp h
    rfl
  | strToInt =>
    obtain ⟨_, -, h⟩ := bind_eq_ok.mp h
    obtain ⟨_, -, h⟩ := bind_eq_ok.mp h
    cases pure_eq_ok.mp h
    exact hset hx _
  | arith =>
    obtain ⟨_, -, h⟩ := bind_eq_ok.mp h
    obtain ⟨_, -, h⟩ := bind_eq_ok.mp h
    obtain ⟨_, -, h⟩ := bind_eq_ok.mp h
    cases pure_eq_ok.mp h
    exact hset hx _
  | setArgument =>
    obtain ⟨_, -, h⟩ := bind_eq_ok.mp h
    split at h
    · cases pure_eq_ok.mp h
      rfl
    · cases h
  | readInt =>
    rw [execute] at h
    split at h
    · cases h
    · cases pure_eq_ok.mp h
      exact hset hx _
  | jump =>
    obtain ⟨_, hgo, h⟩ := bind_eq_ok.mp h
    cases pure_eq_ok.mp h
    obtain ⟨rest, -, rfl⟩ := Frame.goTo_eq_ok.mp hgo
    rfl
  | branchCompare =>
    obtain ⟨_, -, h⟩ := bind_eq_ok.mp h
    obtain ⟨_, -, h⟩ := bind_eq_ok.mp h
    obtain ⟨_, -, h⟩ := bind_eq_ok.mp h
    obtain ⟨_, hgo, h⟩ := bind_eq_ok.mp h
    cases pure_eq_ok.mp h
    obtain ⟨rest, -, rfl⟩ := Frame.goTo_eq_ok.mp hgo
    rfl
  | branchZero =>
    obtain ⟨_, -, h⟩ := bind_eq_ok.mp h
    obtain ⟨_, hgo, h⟩ := bind_eq_ok.mp h
    cases pure_eq_ok.mp h
    obtain ⟨rest, -, rfl⟩ := Frame.goTo_eq_ok.mp hgo
    rfl

/-! ## The code of expressions -/

/-- **Code leaves variables alone.** -/
def Code.SparesVariables (code : Code) : Prop :=
  ∀ i ∈ code, i.SparesVariables

namespace Code.SparesVariables

variable {code rest : Code} {i : Instr}

theorem append (h : code.SparesVariables) (h' : rest.SparesVariables) :
    (code ++ rest).SparesVariables := List.forall_mem_append.mpr ⟨h, h'⟩

theorem cons (h : i.SparesVariables) (h' : code.SparesVariables) :
    SparesVariables (i :: code) := List.forall_mem_cons.mpr ⟨h, h'⟩

theorem single (h : i.SparesVariables) : SparesVariables [i] :=
  List.forall_mem_singleton.mpr h

end Code.SparesVariables

namespace Instr.SparesVariables

theorem of_none {i : Instr} (h : i.dst? = none) : i.SparesVariables := by
  intro x hx
  rw [h] at hx
  cases hx

theorem of_some {i : Instr} {dst : Slot} (h : i.dst? = some dst)
    (hdst : ¬ Ident.Plain dst) : i.SparesVariables := by
  intro x hx
  rw [h] at hx
  cases hx
  exact hdst

end Instr.SparesVariables

theorem not_plain_freshTemporary {t t' : SymbolTable} {id : ScopeId} {ty : Ty}
    {temp : Slot} (h : t.freshTemporary id ty = (temp, t')) :
    ¬ Ident.Plain temp := (made_freshTemporary h).not_plain

/-- **A destination is none of the variables.** -/
def Destination.SparesVariables : Destination → Prop
  | .store dst => ¬ Ident.Plain dst
  | .branch _ _ => True

theorem sparesVariables_setArguments (index : UInt64) (temps : List Slot) :
    (setArguments index temps).SparesVariables := by
  induction temps generalizing index with
  | nil => exact List.forall_mem_nil _
  | cons temp temps ih => exact .cons (.of_none rfl) (ih (index + 1))

namespace Expr

variable {site : Site}

open Code.SparesVariables Instr.SparesVariables

mutual

/-- **The code of an expression leaves variables alone** if its destination
does. -/
theorem Emits.sparesVariables {e : Expr Judged} {dest : Destination}
    {t t' : SymbolTable} {code : Code} (h : e.Emits site dest t code t')
    (hdest : dest.SparesVariables) : code.SparesVariables := by
  match h with
  | .int | .unit | .boolStore | .varStore | .str _ =>
    exact single (of_some rfl hdest)
  | .varBranch | .boolBranch => exact single (of_none rfl)
  | .arith hleft hlhs hright hrhs =>
    exact ((hlhs.sparesVariables (not_plain_freshTemporary hleft)).append
      (hrhs.sparesVariables (not_plain_freshTemporary hright))).append
        (single (of_some rfl hdest))
  | .compare hleft hlhs hright hrhs =>
    exact ((hlhs.sparesVariables (not_plain_freshTemporary hleft)).append
      (hrhs.sparesVariables (not_plain_freshTemporary hright))).append
        (single (of_none rfl))
  | @Emits.and _ _ _ _ _ _ next _ _ _ _ _ _ _ hlhs hrhs
  | @Emits.or _ _ _ _ _ _ next _ _ _ _ _ _ _ hlhs hrhs =>
    have hlabel : (Instr.label next).SparesVariables := of_none rfl
    exact ((hlhs.sparesVariables trivial).append (single hlabel)).append
      (hrhs.sparesVariables trivial)
  | .not hoperand => exact hoperand.sparesVariables trivial
  | .input htemp hprompt =>
    exact (hprompt.sparesVariables (not_plain_freshTemporary htemp)).append
      (cons (of_none rfl) (single (of_some rfl hdest)))
  | .strToInt _ htemp hoperand | .intToStr _ htemp hoperand =>
    exact (hoperand.sparesVariables (not_plain_freshTemporary htemp)).append
      (single (of_some rfl hdest))
  | .boolToStr _ hchoice =>
    exact hchoice.sparesVariables (of_some rfl hdest) (of_some rfl hdest)
  | .keep _ hoperand => exact hoperand.sparesVariables hdest
  | .call hargs =>
    exact (hargs.sparesVariables.append
      (sparesVariables_setArguments _ _)).append
        (cons (of_none rfl) (single (of_some rfl hdest)))
  | .branchStored _ htemp hvalue =>
    exact (hvalue.sparesVariables (not_plain_freshTemporary htemp)).append
      (single (of_none rfl))
  | .storeBranched _ hflag hchoice =>
    have hplain := not_plain_freshTemporary hflag
    exact (hchoice.sparesVariables (of_some rfl hplain)
      (of_some rfl hplain)).append (single (of_some rfl hdest))

/-- A choice leaves variables alone if its two instructions do. -/
theorem EmitsChoice.sparesVariables {e : Expr Judged} {onTrue onFalse : Instr}
    {t t' : SymbolTable} {code : Code}
    (h : e.EmitsChoice site onTrue onFalse t code t')
    (htrue : onTrue.SparesVariables) (hfalse : onFalse.SparesVariables) :
    code.SparesVariables := by
  match h with
  | .mk _ _ _ he =>
    exact (he.sparesVariables trivial).append (cons (of_none rfl)
      (cons htrue (cons (of_none rfl) (cons (of_none rfl)
        (cons hfalse (single (of_none rfl)))))))

/-- The code of arguments leaves variables alone. -/
theorem EmitsArgs.sparesVariables {args : List (Expr Judged)}
    {temps : List Slot} {t t' : SymbolTable} {code : Code}
    (h : EmitsArgs site args temps t code t') : code.SparesVariables := by
  match h with
  | .nil => exact List.forall_mem_nil _
  | .cons htemp harg hargs =>
    exact (harg.sparesVariables (not_plain_freshTemporary htemp)).append
      hargs.sparesVariables

end

end Expr

/-! ## Runs -/

namespace Machine

variable {a : Assembly} {base : List Frame} {f : Frame}
  {inside : Code → Prop} {m m' : Machine}

/-- **The variables of a call are as they were** in a frame: the call is the
one that waits for nothing but `base`, and it may be waiting itself. -/
def KeepsVariables (base : List Frame) (f : Frame) (m : Machine) : Prop :=
  ∃ upper g, m.frame :: m.callers = upper ++ g :: base
    ∧ ∀ x, Ident.Plain x → g.slots.get? x = f.slots.get? x

/-- The end of a call on top leaves the variables alone. -/
theorem KeepsVariables.leave {upper : List Frame} {top g : Frame}
    {s : Session} (hg : ∀ x, Ident.Plain x → g.slots.get? x = f.slots.get? x)
    (h : Machine.leave top (upper ++ g :: base) s = .next m') :
    m'.KeepsVariables base f := by
  obtain ⟨caller, hcallers, hframe⟩ := leave_eq_next h
  cases upper with
  | nil =>
    obtain ⟨rfl, hbase⟩ := List.cons_eq_cons.mp hcallers
    exact ⟨[], m'.frame, by rw [← hbase]; rfl, fun x hx => by
      rw [hframe]
      exact hg x hx⟩
  | cons u upper =>
    obtain ⟨rfl, hrest⟩ := List.cons_eq_cons.mp hcallers
    exact ⟨m'.frame :: upper, g, by rw [← hrest]; rfl, hg⟩

/-- A step of the call itself leaves the variables alone if its instruction
does. -/
theorem KeepsVariables.step_own {i : Instr} {rest : Code}
    (hi : i.SparesVariables ∧ i ≠ .leave) (hrest : m.frame.rest = i :: rest)
    (hg : ∀ x, Ident.Plain x → m.frame.slots.get? x = f.slots.get? x)
    (hstep : m.step a none = .next m') : m'.KeepsVariables m.callers f := by
  have hperform := step_eq_next hrest hstep
  by_cases hcall : ∃ callee, i = .call callee
  · obtain ⟨callee, rfl⟩ := hcall
    obtain ⟨r, args, -, -, -, hwaits⟩ := call_eq_next hperform
    refine ⟨[m'.frame], { m.frame with rest := rest, arguments := .empty },
      ?_, hg⟩
    rw [hwaits]
    rfl
  · obtain ⟨hexecute, hsame⟩ :=
      perform_eq_next hi.2 (not_exists.mp hcall) hperform
    refine ⟨[], m'.frame, by rw [hsame]; rfl, fun x hx => ?_⟩
    have hdst : i.dst? ≠ some x := fun heq => hi.1 x heq hx
    exact (Instr.execute_slots hexecute hdst).trans (hg x hx)

/-- A step of another call, on top of it, leaves the variables alone. -/
theorem KeepsVariables.step_above {upper : List Frame} {g : Frame}
    (hcallers : m.callers = upper ++ g :: base)
    (hg : ∀ x, Ident.Plain x → g.slots.get? x = f.slots.get? x)
    (hstep : m.step a none = .next m') : m'.KeepsVariables base f := by
  cases hrest : m.frame.rest with
  | nil =>
    rw [step, hrest, hcallers] at hstep
    exact KeepsVariables.leave hg hstep
  | cons i rest =>
    have hperform := step_eq_next hrest hstep
    rw [hcallers] at hperform
    by_cases hleave : i = .leave
    · subst hleave
      exact KeepsVariables.leave hg hperform
    by_cases hcall : ∃ callee, i = .call callee
    · obtain ⟨callee, rfl⟩ := hcall
      obtain ⟨r, args, -, -, -, hwaits⟩ := call_eq_next hperform
      refine ⟨m'.frame :: { m.frame with rest := rest, arguments := .empty }
        :: upper, g, ?_, hg⟩
      rw [hwaits]
      rfl
    · obtain ⟨-, hsame⟩ :=
        perform_eq_next hleave (not_exists.mp hcall) hperform
      exact ⟨m'.frame :: upper, g, by rw [hsame]; rfl, hg⟩

/-- **A step in a piece that leaves variables alone** leaves them alone. -/
theorem Moves.keepsVariables
    (hinside : ∀ i k, inside (i :: k) → i.SparesVariables ∧ i ≠ .leave)
    (hnil : ¬ inside []) (h : m.Moves a (Within inside base) m')
    (hm : m.KeepsVariables base f) : m'.KeepsVariables base f := by
  obtain ⟨hin, hstep⟩ := h
  obtain ⟨upper, g, hframes, hg⟩ := hm
  cases upper with
  -- the call itself is executed, and its next instruction is in the piece
  | nil =>
    obtain ⟨rfl, rfl⟩ := List.cons_eq_cons.mp hframes
    have hpart : inside m.frame.rest := by
      rcases hin with ⟨-, hpart⟩ | hlt
      · exact hpart
      · exact absurd hlt (Nat.lt_irrefl _)
    cases hrest : m.frame.rest with
    | nil => exact absurd (hrest ▸ hpart) hnil
    | cons i rest =>
      exact .step_own (hinside i rest (hrest ▸ hpart)) hrest hg hstep
  | cons top upper =>
    obtain ⟨rfl, hcallers⟩ := List.cons_eq_cons.mp hframes
    exact .step_above hcallers hg hstep

/-- **A run in a piece that leaves variables alone** leaves them alone at all
times. -/
theorem Leads.keepsVariables
    (hinside : ∀ i k, inside (i :: k) → i.SparesVariables ∧ i ≠ .leave)
    (hnil : ¬ inside []) (h : m.Leads a (Within inside m.callers) m') :
    m'.KeepsVariables m.callers m.frame := by
  have hstart : m.KeepsVariables m.callers m.frame :=
    ⟨[], m.frame, rfl, fun _ _ => rfl⟩
  induction h with
  | refl => exact hstart
  | tail _ hmoves ih => exact hmoves.keepsVariables hinside hnil ih

end Machine

end Primer
