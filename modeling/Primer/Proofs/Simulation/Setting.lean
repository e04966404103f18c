import Primer.Proofs.Emission.Texts
import Primer.Proofs.Machine.Calls

/-!
# Code in its place

What emitted code does depends on where it stands. It is part of a routine,
whose labels it goes to, and of a program, whose routines it calls. All that
is fixed while a body is executed is its `Setting`.

A frame represents an environment if its places hold what the variables hold
(`Frame.Ready`). It may hold more: temporaries, of which the environment knows
nothing. Since variables have plain names and temporaries do not, writing to a
temporary leaves the environment represented. `Frame.Keeps` says which places
a piece of code may have written to.

Code *stores* the value of an evaluation (`Setting.Stores`) or *branches* on
it (`Setting.Branches`), and statements are *performed*
(`Setting.Performs`). Each of these says of every run that comes to the code
what becomes of it, wherever in the routine the code stands.
-/

namespace Primer

open SymbolTable

/-! ## Frames and environments -/

/-- **What the machine has for a value.** -/
def Literal.encode : Literal → Value
  | int n => .int n
  | str s => .str s
  | bool b => .int (if b then 1 else 0)
  | unit => .int 0

/-- **A frame represents an environment**, in the body of a routine. -/
structure Frame.Ready (r : Routine) (env : Env) (f : Frame) : Prop where
  /-- It is a frame of the routine. -/
  routine : f.routine = r
  /-- No argument has been set aside. -/
  arguments : f.arguments = .empty
  /-- Variables have their values. -/
  slots : ∀ x, Ident.Plain x → f.slots.get? x = (env x).map Literal.encode

/-- **A frame keeps what another has**, apart from some places and from the
code still to be executed. -/
structure Frame.Keeps (written : Slot → Prop) (f f' : Frame) : Prop where
  /-- It is a frame of the same routine. -/
  routine : f'.routine = f.routine
  /-- The same arguments have been set aside. -/
  arguments : f'.arguments = f.arguments
  /-- The other places are the same. -/
  slots : ∀ x, ¬ written x → f'.slots.get? x = f.slots.get? x

/-- The place `dst` and the temporaries whose numbers lie in a range. -/
def Writes (dst : Slot) (lo hi : Nat) (x : Slot) : Prop :=
  x = dst ∨ Made lo hi x

namespace Frame.Keeps

variable {P Q : Slot → Prop} {f f' f'' : Frame}

theorem refl (P : Slot → Prop) (f : Frame) : f.Keeps P f :=
  ⟨rfl, rfl, fun _ _ => rfl⟩

theorem withRest (h : f.Keeps P f') (k : Code) :
    f.Keeps P (f'.withRest k) := ⟨h.routine, h.arguments, h.slots⟩

theorem mono (h : f.Keeps P f') (hsub : ∀ x, P x → Q x) : f.Keeps Q f' :=
  ⟨h.routine, h.arguments, fun x hx => h.slots x (mt (hsub x) hx)⟩

theorem trans (h : f.Keeps P f') (h' : f'.Keeps P f'') : f.Keeps P f'' where
  routine := h'.routine.trans h.routine
  arguments := h'.arguments.trans h.arguments
  slots x hx := (h'.slots x hx).trans (h.slots x hx)

/-- One place was written to. -/
theorem set (h : f.Keeps P f') {dst : Slot} (hdst : P dst) (v : Value) :
    f.Keeps P (f'.set dst v) where
  routine := h.routine
  arguments := h.arguments
  slots x hx := (Store.get?_set_of_ne _ _ (by
    rintro rfl
    exact hx hdst)).trans (h.slots x hx)

end Frame.Keeps

namespace Frame.Ready

variable {r : Routine} {env : Env} {f f' : Frame}

theorem name_eq (h : f.Ready r env) : f.name = r.name :=
  congrArg Routine.name h.routine

theorem atLabel? (h : f.Ready r env) {label : Label} {rest : Code}
    (hlabel : r.code.atLabel? label = some rest) :
    f.routine.code.atLabel? label = some rest := by
  rw [h.routine]
  exact hlabel

theorem withRest (h : f.Ready r env) (k : Code) :
    (f.withRest k).Ready r env :=
  ⟨h.routine, h.arguments, h.slots⟩

/-- **Writing to places that are no variables** leaves the environment
represented. -/
theorem keeps {P : Slot → Prop} (h : f.Ready r env) (hkeeps : f.Keeps P f')
    (hP : ∀ x, P x → ¬ Ident.Plain x) : f'.Ready r env where
  routine := hkeeps.routine.trans h.routine
  arguments := hkeeps.arguments.trans h.arguments
  slots x hx := (hkeeps.slots x fun hPx => hP x hPx hx).trans (h.slots x hx)

/-- **Writing to a variable** and to temporaries represents the environment
with the variable changed. -/
theorem keeps_set {lo hi : Nat} {name : Ident} {v : Literal}
    (h : f.Ready r env) (hkeeps : f.Keeps (Writes name lo hi) f')
    (hname : f'.slots.get? name = some v.encode) :
    f'.Ready r (env.set name v) where
  routine := hkeeps.routine.trans h.routine
  arguments := hkeeps.arguments.trans h.arguments
  slots x hx := by
    unfold Env.set
    split
    · next heq => rw [heq, hname]; rfl
    · next hne =>
      refine (hkeeps.slots x ?_).trans (h.slots x hx)
      rintro (heq | hmade)
      · exact hne heq
      · exact hmade.not_plain hx

end Frame.Ready

/-! ## Settings -/

/-- **What is fixed while a body is executed.** -/
structure Setting where
  /-- The program. -/
  program : Assembly
  /-- The routine of the body. -/
  routine : Routine
  /-- The body that code was emitted for. -/
  site : Site
  /-- That there is room for the arguments of calls. -/
  room : Prop
  /-- For how long runs are followed. -/
  bound : Nat
  /-- No label is defined twice. -/
  distinct : routine.code.labels.Nodup
  /-- The body ends at its exit. -/
  exit : routine.code.atLabel? site.exit = some [.label site.exit, .leave]
  /-- The texts that any code may print have their names. -/
  constants : site.constants.Mean program.symbols

/-- **A frame is at a piece of code**, which `k` follows. -/
structure Setting.At (S : Setting) (env : Env) (code k : Code) (f : Frame) :
    Prop where
  /-- It represents the environment. -/
  ready : f.Ready S.routine env
  /-- The piece is executed next. -/
  rest : f.rest = code ++ k
  /-- The piece stands in the routine. -/
  inside : code ++ k <:+ S.routine.code

namespace Setting.At

variable {S : Setting} {env env' : Env} {code code' before after k : Code}
  {f f' : Frame} {l : Label}

theorem append (h : S.At env (code ++ code') k f) :
    S.At env code (code' ++ k) f where
  ready := h.ready
  rest := by rw [h.rest, List.append_assoc]
  inside := by rw [← List.append_assoc]; exact h.inside

/-- **The run goes on** with the piece that follows. -/
theorem goOn (h : S.At env code (code' ++ k) f)
    (hready : f'.Ready S.routine env') (hrest : f'.rest = code' ++ k) :
    S.At env' code' k f' where
  ready := hready
  rest := hrest
  inside := (List.suffix_append code (code' ++ k)).trans h.inside

/-- **A label of the piece is found where it stands.** -/
theorem found (h : S.At env (before ++ .label l :: after) k f) :
    S.routine.code.atLabel? l = some (.label l :: (after ++ k)) := by
  -- `first` is what stands before the piece
  obtain ⟨first, hfirst⟩ := h.inside
  have hcode : S.routine.code
      = (first ++ before) ++ .label l :: (after ++ k) := by
    rw [← hfirst]
    simp
  have hdistinct := S.distinct
  rw [hcode] at hdistinct ⊢
  exact Code.atLabel?_append hdistinct

theorem mem_labels (h : S.At env (before ++ .label l :: after) k f) :
    l ∈ S.routine.code.labels := by
  refine Classical.byContradiction fun hnot => ?_
  rw [← Code.atLabel?_eq_none, h.found] at hnot
  cases hnot

end Setting.At

namespace Setting

variable (S : Setting)

/-- **Runs in a setting**, from a frame on. -/
abbrev Runs {β : Type} (callers : List Frame) (f : Frame) (w : World)
    (good : β → Frame → Prop) (result : EStateM.Result Stop World β) : Prop :=
  f.Runs S.program S.room S.bound callers w good result

/-- **Code stores the value of an evaluation** at the place `dst`, in the form
that `encode` gives it, and writes to no other place but to temporaries whose
numbers lie in a range. -/
structure Stores (env : Env) (code : Code) (dst : Slot) (lo hi : Nat)
    (encode : Literal → Value) (x : Eval Literal) : Prop where
  /-- The range is one. -/
  counted : lo ≤ hi
  /-- Runs that come to the code go on after it. -/
  runs : ∀ {f : Frame} {k : Code}, S.At env code k f → ∀ callers w,
    S.Runs callers f w (fun v f' => f'.rest = k
      ∧ f'.slots.get? dst = some (encode v)
      ∧ f.Keeps (Writes dst lo hi) f') (x w)

/-- **Code branches on the value of an evaluation**, and writes to no place
but to temporaries whose numbers lie in a range. -/
structure Branches (env : Env) (code : Code) (ifTrue ifFalse : Label)
    (lo hi : Nat) (x : Eval Literal) : Prop where
  /-- The range is one. -/
  counted : lo ≤ hi
  /-- Runs that come to the code go on at one of the labels. -/
  runs : ifTrue ∈ S.routine.code.labels → ifFalse ∈ S.routine.code.labels →
    ∀ {f : Frame} {k : Code}, S.At env code k f → ∀ callers w,
    S.Runs callers f w (fun v f' => ∃ b, v = .bool b
      ∧ S.routine.code.atLabel? (if b then ifTrue else ifFalse) = some f'.rest
      ∧ f.Keeps (Made lo hi) f') (x w)

/-- **Code does what its destination asks for.** -/
def Evaluates (env : Env) (code : Code) (dest : Destination) (lo hi : Nat)
    (x : Eval Literal) : Prop :=
  match dest with
  | .store dst => S.Stores env code dst lo hi Literal.encode x
  | .branch ifTrue ifFalse => S.Branches env code ifTrue ifFalse lo hi x

/-- **Code writes what an evaluation writes**, and writes to no place but to
temporaries. -/
structure Prints (env : Env) (code : Code) (x : Eval Unit) : Prop where
  /-- Runs that come to the code go on after it. -/
  runs : ∀ {f : Frame} {k : Code}, S.At env code k f → ∀ callers w,
    S.Runs callers f w (fun _ f' => f'.rest = k ∧ f'.Ready S.routine env) (x w)

/-- What comes of a statement, in the machine: the run goes on after it in the
new environment, or it goes to the exit with the result set. -/
def Comes (k : Code) : Flow → Frame → Prop
  | .next env, f => f.rest = k ∧ f.Ready S.routine env
  | .returned v, f => f.rest = [.label S.site.exit, .leave]
    ∧ f.result = some v.encode

/-- **Code performs what an evaluation does.** -/
structure Performs (env : Env) (code : Code) (x : Eval Flow) : Prop where
  /-- Runs that come to the code go on after it or at the exit. -/
  runs : ∀ {f : Frame} {k : Code}, S.At env code k f → ∀ callers w,
    S.Runs callers f w (S.Comes k) (x w)

end Setting

/-! ## Values of evaluations -/

/-- What holds of every value that an evaluation can have. -/
def Eval.Yields {β : Type} (x : Eval β) (post : β → Prop) : Prop :=
  ∀ w b w', x w = .ok b w' → post b

end Primer
