import Primer.Proofs.Machine.Control
import Primer.Proofs.Machine.Instructions
import Primer.Proofs.Text.Decimal

/-!
# Conversions there and back

One instruction stores the numeral of an integer, and one the integer that a
text is the numeral of. Each undoes the other: completely in the one direction,
and in the other up to what a numeral may have in excess.

What an instruction makes of a value is `Instr.Turns`. It is said of all frames,
since an instruction looks at one place of its frame, and changes one.
-/

namespace Primer

open Text

/-- **An instruction turns a value into another**: wherever it finds the one,
it stores the other, and does nothing else. -/
def Instr.Turns (make : Slot → Slot → Instr) (before after : Value) : Prop :=
  ∀ (symbols : SymbolTable) (f : Frame) (s : Session) (dst src : Slot),
    f.slots.get? src = some before →
    (make dst src).execute symbols f s = .ok (f.set dst after, s)

namespace Instr

theorem turns_intToStr (n : Int64) :
    Turns intToStr (.int n) (.str (Decimal.ofInt64 n)) :=
  fun symbols _ s dst _ h => execute_intToStr h symbols s dst

theorem turns_strToInt {text : String} {n : Int64}
    (hn : toInteger? text = some n) :
    Turns strToInt (.str text) (.int n) := by
  intro symbols f s dst src h
  rw [execute_strToInt h, hn]
  rfl

theorem execute_strToInt_eq_ok {symbols : SymbolTable} {f f' : Frame}
    {s s' : Session} {dst src : Slot} {text : String}
    (hsrc : f.slots.get? src = some (.str text))
    (h : (strToInt dst src).execute symbols f s = .ok (f', s')) :
    ∃ n, toInteger? text = some n ∧ f' = f.set dst (.int n) ∧ s' = s := by
  rw [execute_strToInt hsrc] at h
  obtain ⟨n, hn, h⟩ := bind_eq_ok.mp h
  cases pure_eq_ok.mp h
  exact ⟨n, orFail_eq_ok.mp hn, rfl, rfl⟩

/-- **Conversions there and back.** The numeral of an integer, with any blanks
before and after it, is converted to the integer. And if a text is converted to
an integer, the integer is converted to the text made plain, and this to the
integer again. -/
theorem conversions_inverse :
    (∀ n : Int64, ∃ numeral, Turns intToStr (.int n) (.str numeral)
      ∧ ∀ u w : String, (∀ c ∈ u.toList, isBlank c = true) →
        (∀ c ∈ w.toList, isBlank c = true) →
        Turns strToInt (.str (u ++ numeral ++ w)) (.int n))
    ∧ ∀ (symbols : SymbolTable) (f f' : Frame) (s s' : Session)
        (dst src : Slot) (text : String), f.slots.get? src = some (.str text) →
        (strToInt dst src).execute symbols f s = .ok (f', s') →
        ∃ n, f' = f.set dst (.int n) ∧ s' = s
          ∧ Turns intToStr (.int n) (.str (Decimal.plain text))
          ∧ Turns strToInt (.str (Decimal.plain text)) (.int n) := by
  constructor
  · intro n
    exact ⟨Decimal.ofInt64 n, turns_intToStr n, fun u w hu hw =>
      turns_strToInt (toInteger?_append n hu hw)⟩
  · intro symbols f f' s s' dst src text hsrc hexecute
    obtain ⟨n, hn, hf, hs⟩ := execute_strToInt_eq_ok hsrc hexecute
    have hplain := ofInt64_of_toInteger? hn
    have hback : toInteger? (Decimal.plain text) = some n := by
      rw [← hplain]
      simpa using toInteger?_append n (u := "") (w := "") nofun nofun
    exact ⟨n, hf, hs, hplain ▸ turns_intToStr n, turns_strToInt hback⟩

/-- A numeral with all that it can have in excess. -/
theorem conversions_inverse_padded : ∃ f : Frame,
    f.slots.get? "text" = some (.str " -007\t")
      ∧ (strToInt "n" "text").execute .empty f (.fresh [])
        = .ok (f.set "n" (.int (-7)), .fresh [])
      ∧ Turns intToStr (.int (-7)) (.str "-7")
      ∧ Turns strToInt (.str "-7") (.int (-7)) := by
  let f : Frame := .enter ⟨⟨"f", [("text", .str)], .unit, .global⟩, []⟩
    [.str " -007\t"]
  have hexecute : (strToInt "n" "text").execute .empty f (.fresh [])
      = .ok (f.set "n" (.int (-7)), .fresh []) := by decide
  obtain ⟨n, hf, -, hthere, hback⟩ :=
    conversions_inverse.2 .empty f _ _ _ "n" "text" " -007\t" rfl hexecute
  have hn : n = -7 := by
    have hvalue := congrArg (fun f : Frame => f.slots.get? "n") hf
    simpa [Frame.set] using hvalue.symm
  have hplain : Decimal.plain " -007\t" = "-7" := by decide
  rw [hn, hplain] at hthere hback
  exact ⟨f, rfl, hexecute, hthere, hback⟩

end Instr

end Primer
