import Primer.Proofs.Machine.Arithmetic
import Primer.Proofs.Machine.Runs

/-!
# What instructions do

One lemma for each instruction that leaves the callers alone, with the frame
and the world that it makes, and one for each way in which it can fail in
emitted code. Nothing after this module looks into `Instr.execute`.

Emitted code reads a place only when it knows the kind of the value there, so
the errors about kinds do not come up.
-/

namespace Primer

theorem Frame.get_of_some {f : Frame} {slot : Slot} {v : Value}
    (h : f.slots.get? slot = some v) : f.get slot = .ok v := by
  rw [get, h]
  rfl

theorem Frame.get_of_none {f : Frame} {slot : Slot}
    (h : f.slots.get? slot = none) :
    f.get slot = .error (.failed (.unset slot f.name)) := by
  rw [get, h]
  rfl

theorem Frame.getInt_of_some {f : Frame} {slot : Slot} {n : Int64}
    (h : f.slots.get? slot = some (.int n)) : f.getInt slot = .ok n := by
  rw [getInt, get_of_some h]
  rfl

theorem Frame.getInt_of_none {f : Frame} {slot : Slot}
    (h : f.slots.get? slot = none) :
    f.getInt slot = .error (.failed (.unset slot f.name)) := by
  rw [getInt, get_of_none h]
  rfl

theorem Frame.getStr_of_some {f : Frame} {slot : Slot} {s : String}
    (h : f.slots.get? slot = some (.str s)) : f.getStr slot = .ok s := by
  rw [getStr, get_of_some h]
  rfl

theorem Frame.goTo_of_some {f : Frame} {label : Label} {rest : Code}
    (h : f.routine.code.atLabel? label = some rest) :
    f.goTo label = .ok (f.withRest rest) := by
  rw [goTo, h]
  rfl

/-- The world after a text was written. -/
def World.write (w : World) (text : String) : World :=
  { w with output := w.output ++ text }

namespace Instr

/-- An instruction that leaves the callers alone, by itself. -/
def IsLocal : Instr → Prop
  | leave | call _ => False
  | _ => True

variable {a : Assembly} {i : Instr} {f f' : Frame} {w w' : World}

/-- Performing such an instruction is to execute it. -/
theorem IsLocal.perform_eq (h : i.IsLocal) (callers : List Frame)
    (s : Session) : Machine.perform a i f callers s
      = match i.execute a.symbols f s with
        | .ok (frame, session) => .next ⟨frame, callers, session⟩
        | .error outcome => .halt outcome s := by
  refine Machine.perform.eq_3 a i f callers s ?_ ?_
  · rintro rfl
    exact h
  · rintro callee rfl
    exact h

theorem Does.of_execute (hi : i.IsLocal)
    (h : ∀ s, s.world = w → ∃ s', s'.world = w'
      ∧ i.execute a.symbols f s = .ok (f', s')) : i.Does a f w f' w' := by
  intro callers s hs
  obtain ⟨s', hs', hexecute⟩ := h s hs
  refine ⟨s', hs', ?_⟩
  rw [hi.perform_eq, hexecute]

theorem Does.of_pure (hi : i.IsLocal)
    (h : ∀ s, i.execute a.symbols f s = .ok (f', s)) :
    i.Does a f w f' w := .of_execute hi fun s hs => ⟨s, hs, h s⟩

theorem Fails.of_execute {error : RuntimeError} (hi : i.IsLocal)
    (h : ∀ s, s.world = w → i.execute a.symbols f s = .error (.failed error)) :
    i.Fails a f w error := by
  intro callers s hs
  refine ⟨s, hs, ?_⟩
  rw [hi.perform_eq, h s hs]

/-! ## Labels and jumps -/

theorem does_label (name : Label) : (label name).Does a f w f w :=
  .of_pure trivial fun _ => rfl

theorem does_enter : enter.Does a f w f w := .of_pure trivial fun _ => rfl

theorem does_nop : nop.Does a f w f w := .of_pure trivial fun _ => rfl

theorem does_jump {target : Label} {rest : Code}
    (h : f.routine.code.atLabel? target = some rest) :
    (jump target).Does a f w (f.withRest rest) w := by
  refine .of_pure trivial fun s => ?_
  rw [execute, Frame.goTo_of_some h]
  rfl

/-- A comparison of integers goes to one of two labels. -/
theorem does_branchCompare {op : Comparison} {lhs rhs : Slot} {m n : Int64}
    {ifTrue ifFalse : Label} {rest : Code}
    (hlhs : f.slots.get? lhs = some (.int m))
    (hrhs : f.slots.get? rhs = some (.int n))
    (h : f.routine.code.atLabel?
      (if op.exact m.toInt n.toInt then ifTrue else ifFalse) = some rest) :
    (branchCompare op lhs rhs ifTrue ifFalse).Does a f w
      (f.withRest rest) w := by
  refine .of_pure trivial fun s => ?_
  have hcompare : op.compare? (.int m) (.int n)
      = some (op.exact m.toInt n.toInt) :=
    congrArg some (op.holds_eq m n)
  rw [execute, Frame.get_of_some hlhs, Frame.get_of_some hrhs]
  show (orFail (op.compare? (.int m) (.int n))
    (.incomparable (.int m) (.int n)) >>= fun holds =>
      f.goTo (if holds then ifTrue else ifFalse) >>= fun f => pure (f, s)) = _
  rw [hcompare]
  show (f.goTo (if op.exact m.toInt n.toInt then ifTrue else ifFalse)
    >>= fun f => pure (f, s)) = _
  rw [Frame.goTo_of_some h]
  rfl

/-- A test of an integer goes to one of two labels. -/
theorem does_branchZero {test : ZeroTest} {src : Slot} {n : Int64}
    {ifTrue ifFalse : Label} {rest : Code}
    (hsrc : f.slots.get? src = some (.int n))
    (h : f.routine.code.atLabel?
      (if test.passes n then ifTrue else ifFalse) = some rest) :
    (branchZero test src ifTrue ifFalse).Does a f w (f.withRest rest)
      w := by
  refine .of_pure trivial fun s => ?_
  rw [execute, Frame.getInt_of_some hsrc]
  show (f.goTo (if test.passes n then ifTrue else ifFalse)
    >>= fun f => pure (f, s)) = _
  rw [Frame.goTo_of_some h]
  rfl

theorem fails_branchZero {test : ZeroTest} {src : Slot}
    {ifTrue ifFalse : Label} (hsrc : f.slots.get? src = none) :
    (branchZero test src ifTrue ifFalse).Fails a f w
      (.unset src f.name) := by
  refine .of_execute trivial fun s _ => ?_
  rw [execute, Frame.getInt_of_none hsrc]
  rfl

/-! ## Places -/

theorem does_move {dst src : Slot} {v : Value}
    (h : f.slots.get? src = some v) :
    (move dst src).Does a f w (f.set dst v) w := by
  refine .of_pure trivial fun s => ?_
  rw [execute, Frame.get_of_some h]
  rfl

theorem fails_move {dst src : Slot} (h : f.slots.get? src = none) :
    (move dst src).Fails a f w (.unset src f.name) := by
  refine .of_execute trivial fun s _ => ?_
  rw [execute, Frame.get_of_none h]
  rfl

theorem does_set (dst : Slot) (n : Int64) :
    (set dst n).Does a f w (f.set dst (.int n)) w :=
  .of_pure trivial fun _ => rfl

theorem does_loadString {dst : Slot} {constant : Label} {text : String}
    (h : a.symbols.constant? constant = some text) :
    (loadString dst constant).Does a f w (f.set dst (.str text)) w := by
  refine .of_pure trivial fun s => ?_
  rw [execute, h]
  rfl

theorem does_fetchResult {dst : Slot} {v : Value}
    (h : f.received = some v) : (fetchResult dst).Does a f w
      (Frame.set { f with received := none } dst v) w := by
  refine .of_pure trivial fun s => ?_
  rw [execute, h]
  rfl

theorem does_setResult {src : Slot} {v : Value}
    (h : f.slots.get? src = some v) :
    (setResult src).Does a f w { f with result := some v } w := by
  refine .of_pure trivial fun s => ?_
  rw [execute, Frame.get_of_some h]
  rfl

theorem does_setArgument {index : UInt64} {src : Slot} {v : Value}
    (h : f.slots.get? src = some v) (hroom : index.toNat < argumentRoom) :
    (setArgument index src).Does a f w
      { f with arguments := f.arguments.set index.toNat v } w := by
  refine .of_pure trivial fun s => ?_
  rw [execute, Frame.get_of_some h]
  exact if_pos hroom

/-- Setting aside an argument for which there is no room crashes the machine.
-/
theorem perform_setArgument {index : UInt64} {src : Slot} {v : Value}
    (h : f.slots.get? src = some v) (hroom : ¬ index.toNat < argumentRoom)
    (callers : List Frame) (s : Session) :
    Machine.perform a (setArgument index src) f callers s
      = .halt .crashed s := by
  have hexecute : (setArgument index src).execute a.symbols f s
      = .error .crashed := by
    rw [execute, Frame.get_of_some h]
    exact if_neg hroom
  have hlocal : (setArgument index src).IsLocal := trivial
  rw [hlocal.perform_eq, hexecute]

/-! ## Arithmetic and conversions -/

theorem execute_arith {op : ArithOp} {lhs rhs : Slot} {m n : Int64}
    (hlhs : f.slots.get? lhs = some (.int m))
    (hrhs : f.slots.get? rhs = some (.int n)) (symbols : SymbolTable)
    (s : Session) (dst : Slot) : (arith op dst lhs rhs).execute symbols f s
      = orFail (op.compute? m n) (.divisionByZero f.name) >>= fun value =>
        pure (f.set dst (.int value), s) := by
  rw [execute, Frame.getInt_of_some hlhs, Frame.getInt_of_some hrhs]
  rfl

theorem does_arith {op : ArithOp} {dst lhs rhs : Slot} {m n : Int64}
    (hlhs : f.slots.get? lhs = some (.int m))
    (hrhs : f.slots.get? rhs = some (.int n))
    (h : ¬ (op.divides ∧ n = 0)) : (arith op dst lhs rhs).Does a f w
      (f.set dst (.int (Int64.ofInt (op.exact m.toInt n.toInt)))) w := by
  refine .of_pure trivial fun s => ?_
  rw [execute_arith hlhs hrhs, op.compute?_eq, if_neg h]
  rfl

theorem fails_arith {op : ArithOp} {dst lhs rhs : Slot} {m n : Int64}
    (hlhs : f.slots.get? lhs = some (.int m))
    (hrhs : f.slots.get? rhs = some (.int n)) (h : op.divides ∧ n = 0) :
    (arith op dst lhs rhs).Fails a f w (.divisionByZero f.name) := by
  refine .of_execute trivial fun s _ => ?_
  rw [execute_arith hlhs hrhs, op.compute?_eq, if_pos h]
  rfl

theorem execute_intToStr {src : Slot} {n : Int64}
    (h : f.slots.get? src = some (.int n)) (symbols : SymbolTable)
    (s : Session) (dst : Slot) : (intToStr dst src).execute symbols f s
      = .ok (f.set dst (.str (Text.Decimal.ofInt64 n)), s) := by
  rw [execute, Frame.getInt_of_some h]
  rfl

theorem does_intToStr {dst src : Slot} {n : Int64}
    (h : f.slots.get? src = some (.int n)) : (intToStr dst src).Does a f w
      (f.set dst (.str (Text.Decimal.ofInt64 n))) w :=
  .of_pure trivial fun s => execute_intToStr h a.symbols s dst

theorem execute_strToInt {src : Slot} {text : String}
    (h : f.slots.get? src = some (.str text)) (symbols : SymbolTable)
    (s : Session) (dst : Slot) : (strToInt dst src).execute symbols f s
      = orFail (toInteger? text) (.conversion text) >>= fun value =>
        pure (f.set dst (.int value), s) := by
  rw [execute, Frame.getStr_of_some h]
  rfl

theorem does_strToInt {dst src : Slot} {text : String} {n : Int64}
    (h : f.slots.get? src = some (.str text))
    (hn : toInteger? text = some n) :
    (strToInt dst src).Does a f w (f.set dst (.int n)) w := by
  refine .of_pure trivial fun s => ?_
  rw [execute_strToInt h, hn]
  rfl

theorem fails_strToInt {dst src : Slot} {text : String}
    (h : f.slots.get? src = some (.str text))
    (hn : toInteger? text = none) :
    (strToInt dst src).Fails a f w (.conversion text) := by
  refine .of_execute trivial fun s _ => ?_
  rw [execute_strToInt h, hn]
  rfl

/-! ## Input and output -/

/-- An integer is written. -/
theorem does_printInt {src : Slot} {n : Int64}
    (h : f.slots.get? src = some (.int n)) : (printInt src).Does a f w f
      (w.write (Text.Decimal.ofInt64 n)) := by
  refine .of_execute trivial ?_
  rintro s rfl
  refine ⟨s.write (Text.Decimal.ofInt64 n), rfl, ?_⟩
  rw [execute, Frame.getInt_of_some h]
  rfl

/-- A text is written. -/
theorem does_printString {src : Slot} {text : String}
    (h : f.slots.get? src = some (.str text)) :
    (printString src).Does a f w f (w.write text) := by
  refine .of_execute trivial ?_
  rintro s rfl
  refine ⟨s.write text, rfl, ?_⟩
  rw [execute, Frame.getStr_of_some h]
  rfl

/-- The next integer is stored. -/
theorem does_readInt {dst : Slot} {n : Int64} {rest : List Int64}
    (h : w.input = n :: rest) : (readInt dst).Does a f w
      (f.set dst (.int n)) { w with input := rest } := by
  refine .of_execute trivial ?_
  rintro s rfl
  refine ⟨{ s with input := rest }, rfl, ?_⟩
  rw [execute, show s.input = n :: rest from h]
  rfl

theorem fails_readInt {dst : Slot} (h : w.input = []) :
    (readInt dst).Fails a f w .inputExhausted := by
  refine .of_execute trivial ?_
  rintro s rfl
  rw [execute, show s.input = [] from h]
  rfl

end Instr

end Primer
