import Primer.Proofs.Machine.Sights
import Primer.Proofs.Machine.StepLimit
import Primer.Proofs.Simulation.Acts

/-!
# What code shows that acts as a tree says

The sights of a tree of acts, over an input, an output and calls, are those of
its acts one after the other (`Act.Gives`). A call among them shows what the
routine shows that is called, run by itself, so that nothing has to be said
about what calls mean (`Assembly.answers`).

If code acts as the tree says, its sights in a run are those of the tree
(`Frame.Acts.follows`). So code shows the same wherever it stands and whatever
it is, if it is code for the same tree.
-/

namespace Primer

open Machine

/-! ## Sights of trees -/

/-- **The sights of a tree of acts**, from what a session shows on, where
`answers` says what is seen of calls. -/
def Act.Gives {β : Type}
    (answers : Ident → List Literal → Session → Sight Literal → Prop) :
    Act β → Session → Sight β → Prop
  | pure b, s, o => o = .shows s ∨ o = .leaves b s
  | fail error, s, o => o = .shows s ∨ o = .stops (.failed error) s
  | stuck, s, o => o = .shows s
  | write text next, s, o =>
    o = .shows s ∨ next.Gives answers (s.write text) o
  | read next, s, o => o = .shows s ∨ match s.input with
    | [] => o = .stops (.failed .inputExhausted) s
    | n :: rest => (next n).Gives answers { s with input := rest } o
  | call callee args next, s, o => o = .shows s
    ∨ ∃ o', answers callee args s o'
      ∧ o'.andThen (fun v s o => (next v).Gives answers s o) o

namespace Act

variable {β : Type}
  {answers : Ident → List Literal → Session → Sight Literal → Prop}
  {s : Session} {o : Sight β} {next : Int64 → Act β}

theorem gives_read_of_nil (h : s.input = []) : (read next).Gives answers s o
    ↔ o = .shows s ∨ o = .stops (.failed .inputExhausted) s := by
  rw [Gives, h]

theorem gives_read_of_cons {n : Int64} {rest : List Int64}
    (h : s.input = n :: rest) : (read next).Gives answers s o
    ↔ o = .shows s ∨ (next n).Gives answers { s with input := rest } o := by
  rw [Gives, h]

/-- What is shown at the beginning is a sight. -/
theorem gives_shows (x : Act β) (s : Session) :
    x.Gives answers s (.shows s) := by
  cases x with
  | stuck => rfl
  | pure | fail | write | call => exact Or.inl rfl
  | read =>
    rw [Gives]
    exact Or.inl rfl

end Act

/-! ## Calls by themselves -/

/-- **A call hands a value back** of a type, at its end. -/
def Machine.HandsBack (ty : Ty) (v : Literal) (m : Machine) : Prop :=
  v.ty = ty ∧ m.frame.result = some v.encode

/-- **The start of a call by itself**, with no other call waiting. -/
def Machine.called (r : Routine) (args : List Literal) (s : Session) :
    Machine :=
  ⟨.enter r (args.map Literal.encode), [],
    s.record (.call r.name (args.map Literal.encode))⟩

/-- **What is seen of a call** from what a session shows on: it crashes where
there is no room for its arguments, and otherwise the routine is run. -/
def Assembly.answers (a : Assembly) (sigs : Signatures) (callee : Ident)
    (args : List Literal) (s : Session) (o : Sight Literal) : Prop :=
  if argumentRoom < args.length then o = .stops .crashed s
  else ∃ sig r, sigs callee = some sig ∧ a.routine? callee = some r
    ∧ (called r args s).Gives a InCall (HandsBack sig.ret) o

theorem Assembly.answers_iff {a : Assembly} {sigs : Signatures}
    {callee : Ident} {args : List Literal} {sig : Signature} {r : Routine}
    (hroom : args.length ≤ argumentRoom) (hsig : sigs callee = some sig)
    (hroutine : a.routine? callee = some r) (s : Session)
    (o : Sight Literal) : a.answers sigs callee args s o
      ↔ (called r args s).Gives a InCall (HandsBack sig.ret) o := by
  unfold answers
  simp [if_neg (Nat.not_lt.mpr hroom), hsig, hroutine]

/-- **A program answers calls**: every call has its routine, and what comes
back from it has its type. -/
def Assembly.Answers (a : Assembly) (sigs : Signatures) : Prop :=
  ∀ callee sig args, sigs callee = some sig →
    args.map Literal.ty = sig.params →
    ∃ r, a.routine? callee = some r
      ∧ r.prototype.params.length = args.length
      ∧ ∀ s m, (called r args s).Leads a InCall m → m.AtEnd →
        ∃ v, HandsBack sig.ret v m

/-! ## One step -/

namespace Instr

variable {a : Assembly} {i : Instr} {f f' : Frame} {w' : World}

/-- What does its work whatever the callers are leaves them alone. -/
theorem Does.isLocal {w : World} (h : i.Does a f w f' w') : i.IsLocal := by
  obtain ⟨s', -, hstep⟩ := h [] ⟨w.input, w.output, 0, []⟩ rfl
  cases i with
  | leave => cases hstep
  | call callee =>
    -- a call puts a frame on top of the callers
    have hcall : Machine.call a callee f [] ⟨w.input, w.output, 0, []⟩
        = .next ⟨f', [], s'⟩ := hstep
    unfold Machine.call at hcall
    split at hcall
    · cases hcall
    · split at hcall
      · cases hcall
      · unfold Machine.enter at hcall
        simp only at hcall
        split at hcall <;> cases hcall
  | _ => trivial

/-- **What is shown after an instruction** has the calls that were shown
before. -/
theorem Does.exists_shown {s : Session} (h : i.Does a f s.world f' w')
    (callers : List Frame) : ∃ s',
      Machine.perform a i f callers s = .next ⟨f', callers, s'⟩
      ∧ s'.shown
        = { s.shown with input := w'.input, output := w'.output } := by
  obtain ⟨s', rfl, hstep⟩ := h callers s rfl
  refine ⟨s', hstep, ?_⟩
  rw [h.isLocal.perform_eq] at hstep
  have hspares := spares_execute i a.symbols f s
  cases hexecute : i.execute a.symbols f s with
  | error outcome => rw [hexecute] at hstep; cases hstep
  | ok result =>
    rw [hexecute] at hstep hspares
    have hlog : s'.log = s.log := by
      cases hstep
      exact hspares.2
    unfold Session.shown
    rw [hlog]
    rfl

/-- An instruction that fails by itself leaves the session alone. -/
theorem Fails.perform_eq {error : RuntimeError} {s : Session}
    (h : i.Fails a f s.world error) (hlocal : i.IsLocal)
    (callers : List Frame) :
    Machine.perform a i f callers s = .halt (.failed error) s := by
  obtain ⟨s', -, hstep⟩ := h callers s rfl
  rw [hlocal.perform_eq] at hstep ⊢
  cases hexecute : i.execute a.symbols f s with
  | ok result => rw [hexecute] at hstep; cases hstep
  | error outcome =>
    rw [hexecute] at hstep
    cases hstep
    rfl

end Instr

/-- **A call starts the routine** with the arguments set aside, on top of the
caller. -/
theorem Machine.step_call {a : Assembly} {m : Machine} {callee : Ident}
    {r : Routine} {args : List Literal} {k : Code}
    (hrest : m.frame.rest = .call callee :: k)
    (hroutine : a.routine? callee = some r)
    (hargs : m.frame.arguments = .numbered (args.map Literal.encode))
    (hlength : r.prototype.params.length = args.length) :
    ∃ m₁, m.step a none = .next m₁
      ∧ m₁.atop [] = (called r args m.session.shown).atop
        ((m.frame.withRest k).withArguments .empty :: m.callers) := by
  refine ⟨⟨.enter r (args.map Literal.encode),
    (m.frame.withRest k).withArguments .empty :: m.callers,
    (m.session.countStep.record (.step m.frame.name (.call callee))).record
      (.call r.name (args.map Literal.encode))⟩, ?_, ?_⟩
  · have hcollect : collect (m.frame.withRest k).arguments 0
        (m.frame.withRest k).argumentCount
          = .ok (args.map Literal.encode) := Frame.collect_arguments hargs
    rw [step_none hrest]
    show Machine.call a callee (m.frame.withRest k) m.callers _ = _
    unfold Machine.call
    simp only [hroutine, hcollect]
    have henough : (args.map Literal.encode).length
        = r.prototype.params.length := by rw [List.length_map, hlength]
    exact if_neg (Nat.not_lt.mpr (Nat.le_of_eq henough.symm))
  · simp [atop, called]

namespace Frame.Acts

variable {a : Assembly} {sigs : Signatures} {inside : Code → Prop}
  {base : List Frame} {β : Type} {good : β → Frame → Prop}

/-- The next instruction of a piece takes the machine on. -/
theorem exists_moves {m : Machine} {i : Instr} {k : Code} {f' : Frame}
    {w' : World} (hrest : m.frame.rest = i :: k) (hin : inside m.frame.rest)
    (hcallers : m.callers = base)
    (hi : i.Does a (m.frame.withRest k) m.session.world f' w') :
    ∃ s', m.Moves a (Within inside base) ⟨f', base, s'⟩
      ∧ s'.shown = { m.session.shown with
        input := w'.input, output := w'.output } := by
  have hdoes : i.Does a (m.frame.withRest k)
      (m.session.countStep.record (.step m.frame.name i)).world f' w' := hi
  obtain ⟨s', hstep, hshown⟩ := hdoes.exists_shown m.callers
  rw [← step_none hrest, hcallers] at hstep
  exact ⟨s', ⟨Or.inl ⟨hcallers, hin⟩, hstep⟩, hshown⟩

/-- **A call shows what the callee shows**, and then what the caller does with
the result. -/
theorem follows_call (hanswers : a.Answers sigs)
    {result : β → Machine → Prop} {m : Machine} {callee : Ident}
    {sig : Signature} {args : List Literal} {k : Code}
    {next : Literal → Act β} (hrest : m.frame.rest = .call callee :: k)
    (hin : inside m.frame.rest) (hcallers : m.callers = base)
    (hargs : m.frame.arguments = .numbered (args.map Literal.encode))
    (hroom : args.length ≤ argumentRoom) (hsig : sigs callee = some sig)
    (htys : args.map Literal.ty = sig.params)
    (hnext : ∀ v : Literal, v.ty = sig.ret → ∀ s,
      Follows a (Within inside base) result
        ⟨((m.frame.withRest k).withArguments .empty).receiving v.encode,
          base, s⟩ ((next v).Gives (a.answers sigs) s.shown)) :
    m.Follows a (Within inside base) result
      ((Act.call callee args next).Gives (a.answers sigs)
        m.session.shown) := by
  obtain ⟨r, hroutine, hlength, hends⟩ := hanswers callee sig args hsig htys
  obtain ⟨m₁, hstep, hatop⟩ := step_call hrest hroutine hargs hlength
  have hmoves : m.Moves a (Within inside base) m₁ :=
    ⟨Or.inl ⟨hcallers, hin⟩, hstep⟩
  rw [hcallers] at hatop
  have hafter : m₁.Follows a (Within inside base) result fun o =>
      ∃ o', (called r args m.session.shown).Gives a InCall
          (HandsBack sig.ret) o'
        ∧ o'.andThen (fun v s o => (next v).Gives (a.answers sigs) s o) o := by
    refine .of_callee hatop (hends _) fun v m₂ s hv hs => ?_
    -- the caller has received the result and goes on with it
    obtain ⟨hty, hresult⟩ := hv
    rw [hresult]
    exact hnext v hty s
  refine .of_moves hmoves hafter fun o => ?_
  rw [Act.Gives]
  simp only [Assembly.answers_iff hroom hsig hroutine]

/-- **Code that acts as a tree says shows what the tree does.** -/
theorem follows (hanswers : a.Answers sigs)
    (hout : ∀ b f, good b f → ¬ inside f.rest)
    (hunique : ∀ b b' f, good b f → good b' f → b' = b) {f : Frame}
    {x : Act β} (h : f.Acts a sigs inside good x) {m : Machine}
    (hf : m.frame = f) (hcallers : m.callers = base) :
    m.Follows a (Within inside base)
      (fun b m' => m'.callers = base ∧ good b m'.frame)
      (x.Gives (a.answers sigs) m.session.shown) := by
  -- the induction is on the tree, and the machine makes a step for each node
  induction h generalizing m with
  | @done f b h =>
    subst hf
    refine Follows.of_out ?_ ⟨hcallers, h⟩
      (fun b' hb' => hunique b b' _ h hb'.2) fun o => Iff.rfl
    rintro (⟨-, hin⟩ | hlt)
    · exact hout b _ h hin
    · rw [hcallers] at hlt
      exact Nat.lt_irrefl _ hlt
  | @step f f' i k x hrest hin hi _ ih =>
    subst hf
    obtain ⟨s', hmoves, hs'⟩ := exists_moves hrest hin hcallers (hi _)
    refine .of_moves hmoves (ih rfl rfl) fun o => ?_
    rw [show s'.shown = m.session.shown from hs']
    refine ⟨Or.inr, ?_⟩
    rintro (rfl | h)
    · exact x.gives_shows _
    · exact h
  | @fail f i k error hrest hin hlocal hi =>
    subst hf
    have hfails : i.Fails a (m.frame.withRest k) (m.session.countStep.record
        (.step m.frame.name i)).world error := hi _
    have hstep := hfails.perform_eq hlocal m.callers
    rw [← step_none hrest] at hstep
    exact .of_halt (Or.inl ⟨hcallers, hin⟩) hstep fun o => Iff.rfl
  | write hrest hin hsrc _ ih =>
    subst hf
    obtain ⟨s', hmoves, hs'⟩ := exists_moves hrest hin hcallers
      (Instr.does_printString hsrc)
    refine .of_moves hmoves (ih rfl rfl) fun o => ?_
    rw [hs']
    rfl
  | @read f dst k next hrest hin _ ih =>
    subst hf
    cases hinput : m.session.input with
    | nil =>
      have hfails : (Instr.readInt dst).Fails a (m.frame.withRest k)
          (m.session.countStep.record
            (.step m.frame.name (.readInt dst))).world .inputExhausted :=
        Instr.fails_readInt hinput
      have hstep := hfails.perform_eq trivial m.callers
      rw [← step_none hrest] at hstep
      exact .of_halt (Or.inl ⟨hcallers, hin⟩) hstep fun o =>
        Act.gives_read_of_nil hinput
    | cons n rest =>
      obtain ⟨s', hmoves, hs'⟩ := exists_moves hrest hin hcallers
        (Instr.does_readInt hinput)
      refine .of_moves hmoves (ih n rfl rfl) fun o => ?_
      rw [hs']
      exact Act.gives_read_of_cons hinput
  | call hrest hin hargs hroom hsig htys _ ih =>
    subst hf
    exact follows_call hanswers hrest hin hcallers hargs hroom hsig htys
      fun v hv s => ih v hv rfl rfl
  | @crash f i callee sig args k next hrest hin hroom hsig htys hi =>
    subst hf
    have hstep := hi m.callers
      (m.session.countStep.record (.step m.frame.name i))
    rw [← step_none hrest] at hstep
    refine .of_halt (Or.inl ⟨hcallers, hin⟩) hstep fun o => ?_
    rw [Act.Gives]
    simp only [Assembly.answers, if_pos hroom, exists_eq_left]
    rfl

end Frame.Acts

end Primer
