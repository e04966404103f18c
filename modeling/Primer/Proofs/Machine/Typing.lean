import Primer.Proofs.Machine.Calls
import Primer.Proofs.Machine.Control
import Primer.Proofs.Simulation.Programs
import Primer.Proofs.Typing.Code
import Primer.Proofs.Typing.Scopes

/-!
# Frames respect the symbol table

The machine keeps values under names and knows of no types. Still the table
of a compiled program describes every frame that any of its runs comes to: a
place that is set has a symbol in the scope of the routine, and the value
there fits the type of the symbol (`Frame.Typed`). So a truth value is 0 or 1
wherever one is expected, which conversions and branches rely on.

The invariant is about the values that are under way as well. Those that have
been set aside as arguments fit the types that the code says they have, and
every frame that waits for a call expects a value of the type that the callee
is declared to hand back (`Waiting`). One step preserves all of it
(`Machine.Typed.step`), so it holds of every state of every run.
-/

namespace Primer

open SymbolTable

/-! ## Stores and frames -/

namespace Store

/-- **A store fits places**: what is set is a place, and holds what fits its
type. -/
def Fits (slots : Store Slot) (places : Places) : Prop :=
  ∀ slot v, slots.get? slot = some v → ∃ ty, places slot ty ∧ v.Fits ty

variable {places : Places} {slots : Store Slot}

/-- A place may be set to what fits its type. -/
theorem Fits.set (h : slots.Fits places) {slot : Slot} {ty : Ty}
    (hplace : places slot ty) {v : Value} (hv : v.Fits ty) :
    (slots.set slot v).Fits places := by
  intro slot' v' hv'
  by_cases heq : slot = slot'
  · subst heq
    rw [get?_set_self] at hv'
    cases hv'
    exact ⟨ty, hplace, hv⟩
  · rw [get?_set_of_ne _ _ heq] at hv'
    exact h slot' v' hv'

/-- Parameters may be set to arguments that fit. -/
theorem Fits.foldl_set {params : List (Slot × Ty)} {args : List Value}
    (h : slots.Fits places) (hparams : ∀ b ∈ params, places b.1 b.2)
    (hargs : List.Forall₂ Value.Fits args (params.map Prod.snd)) :
    (((params.map Prod.fst).zip args).foldl
      (fun slots arg => slots.set arg.1 arg.2) slots).Fits places := by
  induction params generalizing args slots with
  | nil => exact h
  | cons b params ih =>
    rw [List.map_cons] at hargs
    cases hargs with
    | cons harg hargs =>
      obtain ⟨hplace, hparams⟩ := List.forall_mem_cons.mp hparams
      exact ih (h.set hplace harg) hparams hargs

end Store

/-- **A frame respects the types of its places**, and that of its result. -/
structure Frame.Typed (symbols : SymbolTable) (f : Frame) : Prop where
  /-- What is set is a place of the scope of the routine. -/
  slots : f.slots.Fits (symbols.HasPlace f.routine.prototype.scope)
  /-- The result fits the declared type. -/
  result : ∀ v, f.result = some v → v.Fits f.routine.prototype.ret

namespace Frame.Typed

variable {symbols : SymbolTable} {f f' : Frame} {slot : Slot} {ty : Ty}
  {v : Value}

theorem get (h : f.Typed symbols)
    (hplace : symbols.HasPlace f.routine.prototype.scope slot ty)
    (hv : f.get slot = .ok v) : v.Fits ty := by
  obtain ⟨ty', hplace', hfits⟩ := h.slots slot v (orFail_eq_ok.mp hv)
  rw [hplace.unique hplace']
  exact hfits

theorem set (h : f.Typed symbols)
    (hplace : symbols.HasPlace f.routine.prototype.scope slot ty)
    (hv : v.Fits ty) : (f.set slot v).Typed symbols :=
  ⟨h.slots.set hplace hv, h.result⟩

theorem goTo {l : Label} (h : f.Typed symbols) (hgo : f.goTo l = .ok f') :
    f'.Typed symbols ∧ f'.arguments = f.arguments := by
  obtain ⟨rest, -, rfl⟩ := Frame.goTo_eq_ok.mp hgo
  exact ⟨⟨h.slots, h.result⟩, rfl⟩

/-- **A call starts with its parameters set** to arguments that fit. -/
theorem enter {r : Routine} {args : List Value}
    (hparams : ∀ b ∈ r.prototype.params,
      symbols.HasPlace r.prototype.scope b.1 b.2)
    (hargs : List.Forall₂ Value.Fits args
      (r.prototype.params.map Prod.snd)) :
    (Frame.enter r args).Typed symbols where
  slots := Store.Fits.foldl_set nofun hparams hargs
  result := nofun

end Frame.Typed

/-- **An instruction that suits the types of the places respects them.** -/
theorem Instr.Suits.execute {i : Instr} {symbols : SymbolTable}
    {f f' : Frame} {s s' : Session}
    (hi : i.Suits (symbols.HasPlace f.routine.prototype.scope)
      f.routine.prototype.ret)
    (hf : f.Typed symbols) (h : i.execute symbols f s = .ok (f', s')) :
    f'.Typed symbols ∧ f'.arguments = f.arguments := by
  cases i with
  | label | enter | nop | leave =>
    cases pure_eq_ok.mp h
    exact ⟨hf, rfl⟩
  | setArgument | call | fetchResult => exact hi.elim
  | set =>
    cases pure_eq_ok.mp h
    obtain ⟨ty, hdst, hvalue⟩ := hi
    exact ⟨hf.set hdst hvalue, rfl⟩
  | move =>
    obtain ⟨v, hv, h⟩ := bind_eq_ok.mp h
    cases pure_eq_ok.mp h
    obtain ⟨ty, ty', hsrc, hdst, hbelow⟩ := hi
    exact ⟨hf.set hdst ((hf.get hsrc hv).mono hbelow), rfl⟩
  | arith =>
    obtain ⟨_, -, h⟩ := bind_eq_ok.mp h
    obtain ⟨_, -, h⟩ := bind_eq_ok.mp h
    obtain ⟨_, -, h⟩ := bind_eq_ok.mp h
    cases pure_eq_ok.mp h
    exact ⟨hf.set hi.1 trivial, rfl⟩
  | jump =>
    obtain ⟨_, hgo, h⟩ := bind_eq_ok.mp h
    cases pure_eq_ok.mp h
    exact hf.goTo hgo
  | branchCompare =>
    obtain ⟨_, -, h⟩ := bind_eq_ok.mp h
    obtain ⟨_, -, h⟩ := bind_eq_ok.mp h
    obtain ⟨_, -, h⟩ := bind_eq_ok.mp h
    obtain ⟨_, hgo, h⟩ := bind_eq_ok.mp h
    cases pure_eq_ok.mp h
    exact hf.goTo hgo
  | branchZero =>
    obtain ⟨_, -, h⟩ := bind_eq_ok.mp h
    obtain ⟨_, hgo, h⟩ := bind_eq_ok.mp h
    cases pure_eq_ok.mp h
    exact hf.goTo hgo
  | setResult =>
    obtain ⟨v, hv, h⟩ := bind_eq_ok.mp h
    cases pure_eq_ok.mp h
    refine ⟨⟨hf.slots, fun v' hv' => ?_⟩, rfl⟩
    cases hv'
    exact hf.get hi hv
  | loadString =>
    obtain ⟨_, -, h⟩ := bind_eq_ok.mp h
    cases pure_eq_ok.mp h
    exact ⟨hf.set hi trivial, rfl⟩
  | printInt | printString =>
    obtain ⟨_, -, h⟩ := bind_eq_ok.mp h
    cases pure_eq_ok.mp h
    exact ⟨hf, rfl⟩
  | readInt =>
    rw [Instr.execute] at h
    split at h
    · cases h
    · cases pure_eq_ok.mp h
      exact ⟨hf.set hi trivial, rfl⟩
  | intToStr =>
    obtain ⟨_, -, h⟩ := bind_eq_ok.mp h
    cases pure_eq_ok.mp h
    exact ⟨hf.set hi.1 trivial, rfl⟩
  | strToInt =>
    obtain ⟨_, -, h⟩ := bind_eq_ok.mp h
    obtain ⟨_, -, h⟩ := bind_eq_ok.mp h
    cases pure_eq_ok.mp h
    exact ⟨hf.set hi.1 trivial, rfl⟩

/-! ## States -/

/-- **A routine is typed**: its code is, and its parameters are places. -/
structure Routine.Typed (sigs : Signatures) (symbols : SymbolTable)
    (r : Routine) : Prop where
  /-- The code is typed. -/
  code : r.code.Typed sigs (symbols.HasPlace r.prototype.scope)
    r.prototype.ret [] none
  /-- Parameters are places. -/
  params : ∀ b ∈ r.prototype.params,
    symbols.HasPlace r.prototype.scope b.1 b.2

/-- **A program is typed**: its routines are, and what they expect and hand
back is what the signatures say. -/
structure Assembly.Typed (sigs : Signatures) (a : Assembly) : Prop where
  /-- Every routine is typed. -/
  routines : ∀ r ∈ a.bodies, r.Typed sigs a.symbols
  /-- A routine has the signature that its name has. -/
  signature : ∀ callee sig r, sigs callee = some sig →
    a.routine? callee = some r →
    r.prototype.params.map Prod.snd = sig.params ∧ r.prototype.ret = sig.ret
  /-- The main routine has no parameters. -/
  main : a.main.prototype.params = []

/-- **A frame executes typed code**, with values of the types `tys` set aside
as arguments; see `Code.Typed`. -/
structure Frame.Executes (a : Assembly) (sigs : Signatures) (f : Frame)
    (tys : List Ty) (got : Option Ty) : Prop where
  /-- The routine is one of the program. -/
  routine : f.routine ∈ a.bodies
  /-- The places respect their types. -/
  typed : f.Typed a.symbols
  /-- The code to be executed is typed. -/
  code : f.rest.Typed sigs (a.symbols.HasPlace f.routine.prototype.scope)
    f.routine.prototype.ret tys got
  /-- Arguments that fit are set aside, and there was room for them. -/
  arguments : ∃ values, f.arguments = .numbered values
    ∧ List.Forall₂ Value.Fits values tys ∧ values.length ≤ argumentRoom

/-- **Frames wait** for calls. The first waits for a value of this type, and
each of the others for what the one before it is declared to hand back. -/
inductive Waiting (a : Assembly) (sigs : Signatures) :
    Ty → List Frame → Prop
  /-- No frame waits. -/
  | nil {ty : Ty} : Waiting a sigs ty []
  /-- One more frame waits. -/
  | cons {ty : Ty} {caller : Frame} {callers : List Frame}
      (hcaller : caller.Executes a sigs [] (some ty))
      (h : Waiting a sigs caller.routine.prototype.ret callers) :
    Waiting a sigs ty (caller :: callers)

/-- **All values of a state fit their types.** -/
structure Machine.Typed (a : Assembly) (sigs : Signatures) (m : Machine) :
    Prop where
  /-- The frame executes typed code, and has received what the code expects.
  -/
  frame : ∃ tys got, m.frame.Executes a sigs tys got
    ∧ ∀ ty v, got = some ty → m.frame.received = some v → v.Fits ty
  /-- The callers wait for its result. -/
  callers : Waiting a sigs m.frame.routine.prototype.ret m.callers

variable {a : Assembly} {sigs : Signatures} {limit : Option Nat}

theorem Waiting.typed {ty : Ty} {callers : List Frame}
    (h : Waiting a sigs ty callers) :
    ∀ f ∈ callers, f.routine ∈ a.bodies ∧ f.Typed a.symbols := by
  induction h with
  | nil => exact nofun
  | cons hcaller _ ih =>
    exact List.forall_mem_cons.mpr ⟨⟨hcaller.routine, hcaller.typed⟩, ih⟩

namespace Frame.Executes

variable {f : Frame}

theorem enter (h : a.Typed sigs) {r : Routine} (hr : r ∈ a.bodies)
    {args : List Value} (hargs : List.Forall₂ Value.Fits args
      (r.prototype.params.map Prod.snd)) :
    (Frame.enter r args).Executes a sigs [] none where
  routine := hr
  typed := .enter (h.routines r hr).params hargs
  code := (h.routines r hr).code
  arguments := ⟨[], rfl, .nil, Nat.zero_le _⟩

section Instructions

variable {tys : List Ty} {got : Option Ty} {rest : Code} {f' : Frame}
  {s s' : Session}

/-- **An instruction that has nothing to do with calls** leaves typed code to
be executed. -/
theorem execute (h : a.Typed sigs) (hf : f.Executes a sigs [] got)
    {i : Instr} (hi : i.Suits (a.symbols.HasPlace f.routine.prototype.scope)
      f.routine.prototype.ret)
    (hrest : rest.Typed sigs (a.symbols.HasPlace f.routine.prototype.scope)
      f.routine.prototype.ret [] none)
    (hexecute : i.execute a.symbols { f with rest := rest } s
      = .ok (f', s')) :
    f'.Executes a sigs [] none ∧ f'.routine = f.routine := by
  have hf' : Frame.Typed a.symbols { f with rest := rest } :=
    ⟨hf.typed.slots, hf.typed.result⟩
  obtain ⟨htyped, harguments⟩ :=
    Instr.Suits.execute (f := { f with rest := rest }) hi hf' hexecute
  obtain ⟨hroutine, hnext⟩ := Instr.execute_eq_ok hexecute
  refine ⟨⟨hroutine ▸ hf.routine, htyped, ?_, harguments ▸ hf.arguments⟩,
    hroutine⟩
  rw [hroutine]
  rcases hnext with ⟨-, hnext⟩ | ⟨l, -, hnext⟩
  · rw [hnext]
    exact hrest
  -- a jump finds a label in the code of the routine, which is typed
  · obtain ⟨hsuffix, after, hfound⟩ := Code.atLabel?_eq_some hnext
    rw [hfound] at hsuffix ⊢
    exact (h.routines _ hf.routine).code.of_suffix hsuffix

/-- **One more argument is set aside**, under the next index. -/
theorem setArgument (hf : f.Executes a sigs tys got) {src : Slot} {ty : Ty}
    (hsrc : a.symbols.HasPlace f.routine.prototype.scope src ty)
    (hrest : rest.Typed sigs (a.symbols.HasPlace f.routine.prototype.scope)
      f.routine.prototype.ret (tys ++ [ty]) none)
    (hexecute : (Instr.setArgument (.ofNat tys.length) src).execute a.symbols
      { f with rest := rest } s = .ok (f', s')) :
    f'.Executes a sigs (tys ++ [ty]) none ∧ f'.routine = f.routine := by
  obtain ⟨v, hv, hexecute⟩ := bind_eq_ok.mp hexecute
  split at hexecute
  · next hroom =>
    cases pure_eq_ok.mp hexecute
    obtain ⟨values, hvalues, hfits, hle⟩ := hf.arguments
    have hlength := hfits.length_eq
    -- the index has not wrapped, since there was room for those before it
    have hindex : (UInt64.ofNat tys.length).toNat = values.length := by
      rw [UInt64.toNat_ofNat', hlength]
      have := argumentRoom_lt
      have hlt : tys.length < UInt64.size := by omega
      exact Nat.mod_eq_of_lt hlt
    refine ⟨⟨hf.routine, ⟨hf.typed.slots, hf.typed.result⟩, hrest,
      values ++ [v], ?_, ?_, ?_⟩, rfl⟩
    · show f.arguments.set _ v = _
      rw [hindex, hvalues, Store.set_numbered]
    · exact List.rel_append hfits (.cons (hf.typed.get hsrc hv) .nil)
    · rw [List.length_append, List.length_singleton, ← hindex]
      exact hroom
  · cases hexecute

/-- **What was handed back is fetched.** -/
theorem fetchResult {ty ty' : Ty} (hf : f.Executes a sigs [] got)
    (hreceived : ∀ v, f.received = some v → v.Fits ty) {dst : Slot}
    (hdst : a.symbols.HasPlace f.routine.prototype.scope dst ty')
    (hbelow : ty.Below ty')
    (hrest : rest.Typed sigs (a.symbols.HasPlace f.routine.prototype.scope)
      f.routine.prototype.ret [] none)
    (hexecute : (Instr.fetchResult dst).execute a.symbols
      { f with rest := rest } s = .ok (f', s')) :
    f'.Executes a sigs [] none ∧ f'.routine = f.routine := by
  obtain ⟨v, hv, hexecute⟩ := bind_eq_ok.mp hexecute
  cases pure_eq_ok.mp hexecute
  have hfits := (hreceived v (orFail_eq_ok.mp hv)).mono hbelow
  exact ⟨⟨hf.routine, ⟨hf.typed.slots.set hdst hfits, hf.typed.result⟩,
    hrest, hf.arguments⟩, rfl⟩

end Instructions

end Frame.Executes

namespace Machine

/-- **What one step passes between frames fits**: the arguments of a call fit
the parameters, and the result of a call that ends fits the declared type. -/
structure Passes (a : Assembly) (m m' : Machine) : Prop where
  /-- A call passes arguments to a routine of the name. -/
  arguments : ∀ callee rest, m.frame.rest = .call callee :: rest →
    ∃ r args, a.routine? callee = some r ∧ m'.frame = .enter r args
      ∧ List.Forall₂ Value.Fits args (r.prototype.params.map Prod.snd)
  /-- The end of a call passes a result to the caller. -/
  result : m'.callers.length < m.callers.length →
    m'.frame.received = m.frame.result
      ∧ ∀ v, m.frame.result = some v → v.Fits m.frame.routine.prototype.ret

namespace Typed

variable {m m' : Machine} {f : Frame} {s : Session}

/-- **A step that stays in the routine.** -/
theorem stays (hm : m.Typed a sigs) {tys : List Ty}
    (hf : m'.frame.Executes a sigs tys none)
    (hroutine : m'.frame.routine = m.frame.routine)
    (hcallers : m'.callers = m.callers)
    (hcall : ∀ callee rest, m.frame.rest ≠ .call callee :: rest) :
    m'.Typed a sigs ∧ m.Passes a m' := by
  refine ⟨⟨⟨tys, none, hf, nofun⟩, ?_⟩, ?_, ?_⟩
  · rw [hroutine, hcallers]
    exact hm.callers
  · exact fun callee rest hrest => absurd hrest (hcall callee rest)
  · rw [hcallers]
    exact fun hlt => absurd hlt (Nat.lt_irrefl _)

/-- **A call passes what fits the parameters**, and the caller waits for what
the callee is declared to hand back. -/
theorem call (h : a.Typed sigs) (hm : m.Typed a sigs) {callee : Ident}
    {sig : Signature} {rest : Code} {got : Option Ty}
    (hsig : sigs callee = some sig)
    (hf : m.frame.Executes a sigs sig.params got)
    (hrest : m.frame.rest = .call callee :: rest)
    (hcode : rest.Typed sigs
      (a.symbols.HasPlace m.frame.routine.prototype.scope)
      m.frame.routine.prototype.ret [] (some sig.ret))
    (hcall : Machine.call a callee { m.frame with rest := rest } m.callers s
      = .next m') :
    m'.Typed a sigs ∧ m.Passes a m' := by
  obtain ⟨r, args, hr, hcollect, hframe, hwait⟩ := call_eq_next hcall
  obtain ⟨values, hvalues, hfits, -⟩ := hf.arguments
  obtain rfl : values = args := by
    rw [Frame.collect_arguments (f := { m.frame with rest := rest }) hvalues]
      at hcollect
    exact Except.ok.inj hcollect
  obtain ⟨hparams, hret⟩ := h.signature callee sig r hsig hr
  rw [← hparams] at hfits
  rw [← hret] at hcode
  refine ⟨⟨?_, ?_⟩, fun callee' rest' hrest' => ?_, fun hlt => ?_⟩
  · rw [hframe]
    have hbody : r ∈ a.bodies :=
      List.mem_append_left _ (List.mem_of_find?_eq_some hr)
    exact ⟨[], none, .enter h hbody hfits, nofun⟩
  · rw [hframe, hwait]
    exact .cons ⟨hf.routine, ⟨hf.typed.slots, hf.typed.result⟩, hcode,
      ⟨[], rfl, .nil, Nat.zero_le _⟩⟩ hm.callers
  · cases hrest.symm.trans hrest'
    exact ⟨r, values, hr, hframe, hfits⟩
  · rw [hwait, List.length_cons] at hlt
    omega

/-- **The end of a call hands back what fits the declared type.** -/
theorem leave (hm : m.Typed a sigs) (hresult : f.result = m.frame.result)
    (hcall : ∀ callee rest, m.frame.rest ≠ .call callee :: rest)
    (hleave : Machine.leave f m.callers s = .next m') :
    m'.Typed a sigs ∧ m.Passes a m' := by
  obtain ⟨caller, hcallers, hframe⟩ := leave_eq_next hleave
  obtain ⟨⟨_, _, hf, -⟩, hwait⟩ := hm
  rw [hcallers] at hwait
  rw [hresult] at hframe
  cases hwait with
  | cons hcaller hwait =>
    refine ⟨⟨?_, ?_⟩, fun callee rest hrest => ?_, fun _ => ?_⟩
    · rw [hframe]
      refine ⟨[], _, ⟨hcaller.routine, ⟨hcaller.typed.slots,
        hcaller.typed.result⟩, hcaller.code, hcaller.arguments⟩, ?_⟩
      intro ty v hty hv
      cases hty
      exact hf.typed.result v hv
    · rw [hframe]
      exact hwait
    · exact absurd hrest (hcall callee rest)
    · rw [hframe]
      exact ⟨rfl, hf.typed.result⟩

/-- **One step keeps all values fitting their types**, and passes on only what
fits. -/
theorem step (h : a.Typed sigs) (hm : m.Typed a sigs)
    (hstep : m.step a limit = .next m') :
    m'.Typed a sigs ∧ m.Passes a m' := by
  obtain ⟨tys, got, hf, hreceived⟩ := hm.frame
  have hcode := hf.code
  cases hrest : m.frame.rest with
  | nil =>
    rw [Machine.step, hrest] at hstep
    exact hm.leave rfl (by simp [hrest]) hstep
  | cons i rest =>
    have hperform := step_eq_next hrest hstep
    rw [hrest] at hcode
    cases hcode with
    | cons hi hcode =>
      have hcall : ∀ callee, i ≠ .call callee := by
        rintro callee rfl
        exact hi
      have hcalls : ∀ callee rest, m.frame.rest ≠ .call callee :: rest := by
        intro callee rest' heq
        exact hcall callee (List.cons.inj (hrest.symm.trans heq)).1
      by_cases hleave : i = .leave
      · subst hleave
        exact hm.leave rfl hcalls hperform
      · obtain ⟨hexecute, hcallers⟩ := perform_eq_next hleave hcall hperform
        obtain ⟨hf', hroutine⟩ := hf.execute h hi hcode hexecute
        exact hm.stays hf' hroutine hcallers hcalls
    | setArgument hsrc hcode =>
      obtain ⟨hexecute, hcallers⟩ :=
        perform_eq_next (i := .setArgument _ _) (by simp) (by simp) hperform
      obtain ⟨hf', hroutine⟩ := hf.setArgument hsrc hcode hexecute
      exact hm.stays hf' hroutine hcallers (by simp [hrest])
    | call hsig hcode => exact hm.call h hsig hf hrest hcode hperform
    | fetchResult hdst hbelow hcode =>
      obtain ⟨hexecute, hcallers⟩ :=
        perform_eq_next (i := .fetchResult _) (by simp) (by simp) hperform
      obtain ⟨hf', hroutine⟩ := hf.fetchResult
        (fun v hv => hreceived _ v rfl hv) hdst hbelow hcode hexecute
      exact hm.stays hf' hroutine hcallers (by simp [hrest])

end Typed

/-- **All values fit their types in every state of every run.** -/
theorem Reachable.typed (h : a.Typed sigs) {m : Machine}
    (hm : m.Reachable a limit) : m.Typed a sigs := by
  induction hm with
  | start henter =>
    obtain ⟨hframe, hcallers⟩ := enter_eq_next henter
    constructor
    · rw [hframe]
      have hbody : a.main ∈ a.bodies := List.mem_append_right _ (by simp)
      refine ⟨[], none, .enter h hbody ?_, nofun⟩
      rw [h.main]
      exact .nil
    · rw [hcallers]
      exact .nil
  | step _ hstep ih => exact (ih.step h hstep).1

end Machine

/-! ## Compiled programs -/

/-- **The variables of a body are places** of its scope when all is emitted,
since their names are plain. -/
theorem Definition.Fills.exists_holdsAll {typed : TypedProgram}
    (hemits : typed.Emits a) (hplain : typed.program.HasPlainNames)
    {d : Definition Judged} (hd : d ∈ typed.program.bodies) {id : ScopeId}
    (hid : typed.symbols.scopeOf? d.name = some id)
    (h : d.Fills sigs (typed.symbols.scope id)) :
    ∃ expected Γ returns, (∀ ty, expected = some ty → ty = d.ret)
      ∧ Stmt.HaveEffect sigs expected d.params .never d.body.stmts Γ returns
      ∧ a.symbols.HoldsAll id Γ := by
  obtain ⟨expected, Γ, returns, hret, heffect, hholds⟩ := h.holds
  refine ⟨expected, Γ, returns, hret, heffect, fun b hb => ?_⟩
  have hname : Ident.Plain b.1 := by
    rcases heffect.context.2.2 b hb with hparam | hintroduced
    · rcases List.mem_append.mp hd with hd | hd
      · exact hplain.parameters d hd b hparam
      · cases List.mem_singleton.mp hd
        cases hparam
    · exact hplain.introduced d hd b.1 hintroduced
  obtain ⟨s, hs, hty⟩ := (hholds.mem b.1 b.2).mp hb
  have hstorage := (hholds.places s (Scope.find?_eq_some hs).1).1
  have hlasts := hemits.lasts (ne_global_of_scopeOf? hid)
  exact ⟨s, hlasts.found b.1 s (fun _ hmade => hmade.not_plain hname) hs,
    hstorage, hty⟩

/-- **Emitted routines are typed.** -/
theorem Routine.EmittedFor.isTyped {p : Program Span} {typed : TypedProgram}
    (hcheck : p.check = .ok typed) (hemits : typed.Emits a)
    (hplain : typed.program.HasPlainNames) {d : Definition Judged}
    (hd : d ∈ typed.program.bodies) {r : Routine} {constants : Constants}
    (h : r.EmittedFor a.symbols constants d) :
    r.Typed typed.program.signature? a.symbols := by
  obtain ⟨id, hid, hfills⟩ := p.exists_fills_of_check hcheck hd
  obtain rfl : id = r.prototype.scope := by
    have hscope := h.scope
    rw [hemits.scopeOf?_after, hid] at hscope
    exact Option.some.inj hscope
  obtain ⟨expected, Γ, returns, hret, heffect, hΓ⟩ :=
    hfills.exists_holdsAll hemits hplain hd hid
  refine ⟨h.typed hret heffect hΓ, fun b hb => ?_⟩
  rw [h.params] at hb
  exact hΓ b (heffect.context.1 hb)

/-- **Emitted programs are typed**, with the signatures of the program that
was checked. -/
theorem TypedProgram.Emits.isTyped {p : Program Span} {typed : TypedProgram}
    (hcheck : p.check = .ok typed) (h : typed.Emits a)
    (hplain : typed.program.HasPlainNames) :
    a.Typed typed.program.signature? where
  routines r hr := by
    obtain ⟨constants, d, hd, hfor⟩ := h.exists_emittedFor hr
    exact hfor.isTyped hcheck h hplain hd
  signature callee sig r hsig hr := by
    obtain ⟨d, hd, rfl⟩ := Option.map_eq_some_iff.mp hsig
    have hroutine : r ∈ a.bodies :=
      List.mem_append_left _ (List.mem_of_find?_eq_some hr)
    obtain ⟨constants, d', hd', hfor⟩ := h.exists_emittedFor hroutine
    -- the routine is emitted for a body of this name, and there is only one
    have hname : d'.name = d.name := by
      have hcallee : r.name = callee := by simpa using List.find?_some hr
      have hcallee' : d.name = callee := by simpa using List.find?_some hd
      rw [← hfor.name, hcallee, hcallee']
    have hmem : d ∈ typed.program.bodies :=
      List.mem_append_left _ (List.mem_of_find?_eq_some hd)
    cases List.inj_on_of_nodup_map
      (Program.check_sound hcheck).wellTyped.nodup_bodies hd' hmem hname
    rw [hfor.params, hfor.ret]
    exact ⟨rfl, rfl⟩
  main := by
    obtain ⟨constants, -, hmain⟩ := h.emittedFor
    exact hmain.params

/-- **The table describes a routine** for a definition: it has the scope of
the routine, and in it a place for every name that the code mentions. -/
structure Routine.Described {α : Type} (symbols : SymbolTable)
    (d : Definition α) (r : Routine) : Prop where
  /-- The routine has the name of the definition. -/
  name : r.name = d.name
  /-- Its parameters are those of the definition. -/
  params : r.prototype.params = d.params
  /-- Its result has the type that is declared. -/
  ret : r.prototype.ret = d.ret
  /-- Its scope is that of the definition. -/
  scope : symbols.scopeOf? d.name = some r.prototype.scope
  /-- Every name in the code is that of a place. -/
  operands : ∀ i ∈ r.code, ∀ slot ∈ i.slots,
    ∃ ty, symbols.HasPlace r.prototype.scope slot ty

/-- **The symbol table describes every frame of every run.** Each routine of
a compiled program is described by the table, and in every state of every run
what is set in a frame is a place of the scope of its routine and holds what
fits the type of the place. What is passed to a callee fits its parameters,
and what it hands back fits its declared type. -/
theorem Program.compile_typed {p : Program Span} {a : Assembly}
    (hcompile : p.compile = .ok a) (hplain : p.HasPlainNames) :
    List.Forall₂ (Routine.Described a.symbols) p.bodies a.bodies
      ∧ ∀ limit (m : Machine), m.Reachable a limit →
        (∀ f ∈ m.frame :: m.callers,
          f.routine ∈ a.bodies ∧ f.Typed a.symbols)
        ∧ ∀ m', m.step a limit = .next m' → m.Passes a m' := by
  obtain ⟨typed, hcheck, hemit⟩ := compile_eq_ok.mp hcompile
  have hsound := check_sound hcheck
  have hemits := TypedProgram.emits_of_emit hemit
  have hnames : typed.program.HasPlainNames :=
    .of_erase (hsound.erase.symm ▸ hplain)
  have htyped := hemits.isTyped hcheck hnames
  constructor
  · obtain ⟨constants, hbodies⟩ := hemits.emittedFor_bodies
    rw [← hsound.erase, bodies_erase, List.forall₂_map_left_iff]
    refine List.forall₂_iff_zip.mpr ⟨hbodies.length_eq, fun {d r} hmem => ?_⟩
    have hr := (List.forall₂_iff_zip.mp hbodies).2 hmem
    have htypedr := htyped.routines r (List.of_mem_zip hmem).2
    exact ⟨hr.name, hr.params, hr.ret, hr.scope, htypedr.code.exists_place⟩
  · intro limit m hm
    have hmachine := hm.typed htyped
    obtain ⟨tys, got, hframe, -⟩ := hmachine.frame
    exact ⟨List.forall_mem_cons.mpr ⟨⟨hframe.routine, hframe.typed⟩,
      hmachine.callers.typed⟩, fun m' hstep => (hmachine.step htyped hstep).2⟩

/-- The table of the doubling program describes every frame of its runs. -/
theorem Program.compile_typed_doubling : ∃ a, doubling.compile = .ok a
    ∧ List.Forall₂ (Routine.Described a.symbols) doubling.bodies a.bodies
    ∧ ∀ limit (m : Machine), m.Reachable a limit →
      (∀ f ∈ m.frame :: m.callers,
        f.routine ∈ a.bodies ∧ f.Typed a.symbols)
      ∧ ∀ m', m.step a limit = .next m' → m.Passes a m' := by
  obtain ⟨a, hcompile⟩ := exists_compile_doubling
  have hplain : doubling.HasPlainNames := ⟨by decide, by decide, by decide⟩
  exact ⟨a, hcompile, compile_typed hcompile hplain⟩

end Primer
