import Primer.Indexed.Typing

/-!
# Answers

An operation on an indexed table may break off, and its error is of another
type than the error on the plain table. `Answers error R m m'` says that none
of this matters: `m` does not break off, and what it gives goes with what `m'`
gives, a value by the relation `R` and an error by the function `error`.

The relation is carried along `do` blocks (`Answers.bind`). The state of a
block is part of what `R` is about, so an invariant of the state comes out of
each step together with its value (`Answers.run_bind`).
-/

namespace Primer

/-- **An attempt answers** what is computed without a table: it does not break
off, it has a value that goes with the value there, and an error that stands
for the error there. -/
def Answers {ε ε' α β : Type} (error : ε' → ε) (R : α → β → Prop)
    (m : ExceptT ε Attempt α) : Except ε' β → Prop
  | .ok b => ∃ a, m.run = some (.ok a) ∧ R a b
  | .error e => m.run = some (.error (error e))

/-- Checks agree if they answer each other with the same errors. -/
abbrev Agrees {α β : Type} (R : α → β → Prop) (m : Checking α)
    (m' : Check β) : Prop :=
  Answers id R m m'

@[simp] theorem Attempt.lift_some {ε α : Type} (a : α) :
    (monadLift (some a : Attempt α) : ExceptT ε Attempt α) = pure a :=
  rfl

namespace Answers

variable {ε ε' α β γ δ σ : Type} {error : ε' → ε} {R : α → β → Prop}
  {R' : γ → δ → Prop} {m : ExceptT ε Attempt α} {m' : Except ε' β}

/-! ## What is answered -/

/-- What answers does not break off. -/
theorem ne_none (h : Answers error R m m') : m.run ≠ none := by
  cases m' with
  | error e =>
    have hm : m.run = some (.error (error e)) := h
    simp [hm]
  | ok b =>
    obtain ⟨a, hm, -⟩ := h
    simp [hm]

/-- An answer is one to something. -/
theorem exists_of_ok (h : Answers error R m m') {a : α}
    (ha : m.run = some (.ok a)) : ∃ b, m' = .ok b ∧ R a b := by
  cases m' with
  | error e =>
    have hm : m.run = some (.error (error e)) := h
    simp [hm] at ha
  | ok b =>
    obtain ⟨a', hm, hab⟩ := h
    rw [hm] at ha
    cases ha
    exact ⟨b, rfl, hab⟩

/-- A failure stands for one. -/
theorem exists_of_error (h : Answers error R m m') {e : ε}
    (he : m.run = some (.error e)) : ∃ e', m' = .error e' ∧ error e' = e := by
  cases m' with
  | error e' =>
    have hm : m.run = some (.error (error e')) := h
    rw [hm] at he
    exact ⟨e', rfl, by simpa using he⟩
  | ok b =>
    obtain ⟨a, hm, -⟩ := h
    simp [hm] at he

/-! ## Blocks -/

theorem ok {a : α} {b : β} (h : R a b) : Answers error R (pure a) (.ok b) :=
  ⟨a, rfl, h⟩

/-- Of what goes with the value, something else may go with another value. -/
theorem map {f : β → δ} {S : α → δ → Prop} (h : Answers error R m m')
    (hmap : ∀ a b, R a b → S a (f b)) : Answers error S m (m'.map f) := by
  cases m' with
  | error e => exact h
  | ok b =>
    obtain ⟨a, hm, hab⟩ := h
    exact ⟨a, hm, hmap a b hab⟩

theorem imp {S : α → β → Prop} (h : Answers error R m m')
    (himp : ∀ a b, R a b → S a b) : Answers error S m m' := by
  have hmap : Answers error S m (m'.map id) := h.map himp
  rwa [Except.map_id, id] at hmap

/-- **Answers go on from answers.** -/
theorem bind {k : α → ExceptT ε Attempt γ} {k' : β → Except ε' δ}
    (h : Answers error R m m')
    (hk : ∀ a b, R a b → Answers error R' (k a) (k' b)) :
    Answers error R' (m >>= k) (m' >>= k') := by
  cases m' with
  | error e =>
    have hm : m = throw (error e) := h
    rw [hm]
    rfl
  | ok b =>
    obtain ⟨a, hm, hab⟩ := h
    have hm : m = pure a := hm
    rw [hm, pure_bind]
    exact hk a b hab

/-- What is done with an answer is up to those who asked. -/
theorem bind_ok {k : α → ExceptT ε Attempt γ} {S : γ → β → Prop}
    (h : Answers error R m m')
    (hk : ∀ a b, R a b → Answers error S (k a) (.ok b)) :
    Answers error S (m >>= k) m' := by
  have hbind : Answers error S (m >>= k) (m' >>= pure) := h.bind hk
  rwa [bind_pure] at hbind

section State

variable {k : α → StateT σ (ExceptT ε Attempt) γ} {s : σ}
  {S : γ × σ → δ → Prop}

/-- **Answers go on from the state** that they come to. -/
theorem run_bind {m : StateT σ (ExceptT ε Attempt) α} {k' : β → Except ε' δ}
    {R : α × σ → β → Prop} (h : Answers error R (m.run s) m')
    (hk : ∀ a s' b, R (a, s') b → Answers error S ((k a).run s') (k' b)) :
    Answers error S ((m >>= k).run s) (m' >>= k') := by
  rw [StateT.run_bind]
  exact h.bind fun _ _ hab => hk _ _ _ hab

/-- What does not ask for the state leaves it as it is. -/
theorem lift_bind {c : Except ε α} {k' : α → Except ε δ} (h : m = liftM c)
    (hk : ∀ a, Answers id S ((k a).run s) (k' a)) :
    Answers id S ((liftM m >>= k).run s) (c >>= k') := by
  subst h
  cases c with
  | error e => rfl
  | ok a => exact hk a

/-- What reads the state is read off this state. -/
theorem read_bind {c : Except ε α} {f : σ → ExceptT ε Attempt α}
    {k' : α → Except ε δ} (h : f s = liftM c)
    (hk : ∀ a, Answers id S ((k a).run s) (k' a)) :
    Answers id S ((get >>= fun s => liftM (f s) >>= k).run s) (c >>= k') :=
  lift_bind h hk

theorem modifyGet_bind {f : σ → α × σ} {m' : Except ε' δ}
    (h : Answers error S ((k (f s).1).run (f s).2) m') :
    Answers error S ((modifyGet f >>= k).run s) m' :=
  h

end State

end Answers

end Primer
