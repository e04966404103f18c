import Primer.Proofs.Semantics.Acts
import Primer.Proofs.Semantics.Soundness
import Primer.Proofs.Simulation.Setting

/-!
# Code that acts as a tree says

Code does what a tree of acts says if it does the same things in the same
order, up to instructions that nobody sees, and comes to a good frame where
the tree has its result (`Frame.Acts`). Nothing is said about the world or
about calls: an integer that is read may be any, and so may the result of a
call, as long as it has its type.

This is enough to know what a run does. Where calls are realized, it realizes
the evaluation that carries the tree out (`Frame.Acts.runs`). What it shows on
the way is said in `Primer.Proofs.Simulation.Sights`.
-/

namespace Primer

/-! ## Frames that act -/

/-- **The run from a frame on acts as a tree says**, in code that lies inside
a piece. -/
inductive Frame.Acts (a : Assembly) (sigs : Signatures) (inside : Code → Prop)
    {β : Type} (good : β → Frame → Prop) : Frame → Act β → Prop
  /-- The result has been reached. -/
  | done {f : Frame} {b : β} (h : good b f) : Acts a sigs inside good f (.pure b)
  /-- An instruction that is not seen. -/
  | step {f f' : Frame} {i : Instr} {k : Code} {x : Act β}
      (hrest : f.rest = i :: k) (hin : inside f.rest)
      (hi : ∀ w, i.Does a (f.withRest k) w f' w)
      (h : Acts a sigs inside good f' x) : Acts a sigs inside good f x
  /-- An instruction that fails. -/
  | fail {f : Frame} {i : Instr} {k : Code} {error : RuntimeError}
      (hrest : f.rest = i :: k) (hin : inside f.rest) (hlocal : i.IsLocal)
      (hi : ∀ w, i.Fails a (f.withRest k) w error) :
    Acts a sigs inside good f (.fail error)
  /-- An instruction that writes. -/
  | write {f : Frame} {src : Slot} {k : Code} {text : String} {x : Act β}
      (hrest : f.rest = .printString src :: k) (hin : inside f.rest)
      (hsrc : f.slots.get? src = some (.str text))
      (h : Acts a sigs inside good (f.withRest k) x) :
    Acts a sigs inside good f (.write text x)
  /-- An instruction that reads. -/
  | read {f : Frame} {dst : Slot} {k : Code} {next : Int64 → Act β}
      (hrest : f.rest = .readInt dst :: k) (hin : inside f.rest)
      (h : ∀ n, Acts a sigs inside good ((f.withRest k).set dst (.int n))
        (next n)) : Acts a sigs inside good f (.read next)
  /-- An instruction that calls. -/
  | call {f : Frame} {callee : Ident} {sig : Signature} {args : List Literal}
      {k : Code} {next : Literal → Act β} (hrest : f.rest = .call callee :: k)
      (hin : inside f.rest)
      (hargs : f.arguments = .numbered (args.map Literal.encode))
      (hroom : args.length ≤ argumentRoom) (hsig : sigs callee = some sig)
      (htys : args.map Literal.ty = sig.params)
      (h : ∀ v : Literal, v.ty = sig.ret → Acts a sigs inside good
        (((f.withRest k).withArguments .empty).receiving v.encode) (next v)) :
    Acts a sigs inside good f (.call callee args next)
  /-- An instruction for whose argument there is no room. -/
  | crash {f : Frame} {i : Instr} {callee : Ident} {sig : Signature}
      {args : List Literal} {k : Code} {next : Literal → Act β}
      (hrest : f.rest = i :: k) (hin : inside f.rest)
      (hroom : argumentRoom < args.length) (hsig : sigs callee = some sig)
      (htys : args.map Literal.ty = sig.params)
      (hi : ∀ callers s, Machine.perform a i (f.withRest k) callers s
        = .halt .crashed s) :
    Acts a sigs inside good f (.call callee args next)

namespace Frame.Acts

variable {a : Assembly} {sigs : Signatures} {inside : Code → Prop}
  {β γ : Type} {good : β → Frame → Prop} {f : Frame} {x : Act β}

/-- **One tree after the other.** -/
theorem bind {goodX : γ → Frame → Prop} {x : Act γ} {next : γ → Act β}
    (h : f.Acts a sigs inside goodX x)
    (hnext : ∀ b f', goodX b f' → f'.Acts a sigs inside good (next b)) :
    f.Acts a sigs inside good (x >>= next) := by
  induction h with
  | done h => exact hnext _ _ h
  | step hrest hin hi _ ih => exact .step hrest hin hi ih
  | fail hrest hin hlocal hi => exact .fail hrest hin hlocal hi
  | write hrest hin hsrc _ ih => exact .write hrest hin hsrc ih
  | read hrest hin _ ih => exact .read hrest hin ih
  | call hrest hin hargs hroom hsig htys _ ih =>
    exact .call hrest hin hargs hroom hsig htys ih
  | crash hrest hin hroom hsig htys hi =>
    exact .crash hrest hin hroom hsig htys hi

/-- **A run that goes on** where the tree has its result. -/
theorem andThen {goodX : β → Frame → Prop}
    (h : f.Acts a sigs inside goodX x)
    (hnext : ∀ b f', goodX b f' → f'.Acts a sigs inside good (.pure b)) :
    f.Acts a sigs inside good x := by
  rw [← Act.bind_pure x]
  exact h.bind hnext

theorem mono {good' : β → Frame → Prop} (h : f.Acts a sigs inside good x)
    (hgood : ∀ b f', good b f' → good' b f') :
    f.Acts a sigs inside good' x :=
  h.andThen fun b f' hb => .done (hgood b f' hb)

theorem last {i : Instr} {k : Code} {b : β} {f' : Frame}
    (hrest : f.rest = i :: k) (hin : inside f.rest)
    (hi : ∀ w, i.Does a (f.withRest k) w f' w) (h : good b f') :
    f.Acts a sigs inside good (.pure b) := .step hrest hin hi (.done h)

end Frame.Acts

/-! ## Arguments -/

/-- **Values are set aside as arguments** of a call, after those that have
been. -/
theorem Frame.Acts.setAside {a : Assembly} {sigs : Signatures}
    {inside : Code → Prop} {β : Type} {good : β → Frame → Prop}
    {callee : Ident} {sig : Signature} {args : List Literal}
    {next : Literal → Act β} {k : Code} (hsig : sigs callee = some sig)
    (htys : args.map Literal.ty = sig.params) {temps : List Slot} {f : Frame}
    {done values : List Value} {index : UInt64}
    (hrest : f.rest = setArguments index temps ++ k)
    (hin : ∀ c, c ≠ [] → c <:+ setArguments index temps → inside (c ++ k))
    (hdone : f.arguments = .numbered done)
    (hindex : index.toNat = done.length)
    (hfits : done.length ≤ argumentRoom)
    (hvalues : temps.map f.slots.get? = values.map some)
    (hlength : args.length = done.length + values.length)
    (h : args.length ≤ argumentRoom →
      ((f.withRest k).withArguments (.numbered (done ++ values))).Acts a sigs
        inside good (.call callee args next)) :
    f.Acts a sigs inside good (.call callee args next) := by
  induction temps generalizing f done values index with
  | nil =>
    obtain rfl : values = [] := by simpa using hvalues.symm
    rw [List.append_nil, ← hdone, ← (show f.rest = k from hrest)] at h
    exact h (by rw [hlength]; exact hfits)
  | cons temp temps ih =>
    cases values with
    | nil => cases hvalues
    | cons v values =>
      obtain ⟨hv, hvalues⟩ := List.cons_eq_cons.mp hvalues
      have hinside : inside f.rest := by
        rw [hrest]
        exact hin _ (List.cons_ne_nil _ _) (List.suffix_refl _)
      have hlater : ∀ c, c ≠ [] → c <:+ setArguments (index + 1) temps →
          inside (c ++ k) := fun c hc hsuffix =>
        hin c hc (hsuffix.trans (List.suffix_cons _ _))
      rw [List.length_cons] at hlength
      -- there is room for this one, or there is not enough for all
      by_cases hroom : index.toNat < argumentRoom
      -- the index cannot overflow where there is room
      · have hlt : index.toNat + 1 < UInt64.size := by
          have := argumentRoom_lt
          omega
        have hset : f.arguments.set index.toNat v
            = .numbered (done ++ [v]) := by
          rw [hdone, hindex, Store.set_numbered]
        have hnext : (index + 1).toNat = (done ++ [v]).length := by
          rw [UInt64.toNat_add, List.length_append, ← hindex]
          exact Nat.mod_eq_of_lt hlt
        have hcount : (done ++ [v]).length = done.length + 1 := by simp
        refine .step hrest hinside
          (fun _ => Instr.does_setArgument hv hroom)
          (ih rfl hlater hset hnext ?_ hvalues ?_ fun hfit => ?_)
        · omega
        · omega
        · rw [List.append_assoc]
          exact h hfit
      · exact .crash hrest hinside (by omega) hsig htys
          (Instr.perform_setArgument hv hroom)

/-! ## Evaluations -/

/-- **Calls are realized by the routines of a program**: at the instruction
that calls, with the arguments set aside, the run does what the call does and
goes on with the result. -/
def Calls.AreRealized (a : Assembly) (room : Prop) (bound : Nat)
    (sigs : Signatures) (calls : Calls) : Prop :=
  ∀ callee sig args, sigs callee = some sig →
    args.map Literal.ty = sig.params →
    ∀ {f : Frame} {k : Code}, f.rest = .call callee :: k →
    f.arguments = .numbered (args.map Literal.encode) → ∀ callers w,
    f.Runs a room bound callers w (fun v f' =>
      f' = ((f.withRest k).withArguments .empty).receiving v.encode)
      (calls callee args w)

/-- **What calls do**, seen from a body: they are safe, there is room for
their arguments, and the routines of the program realize them. -/
structure Setting.Serves (S : Setting) (p : Program Judged) (calls : Calls) :
    Prop where
  /-- Calls are safe. -/
  safe : calls.AreSafe p
  /-- There is room for arguments. -/
  room : S.room → ∀ callee sig, p.signature? callee = some sig →
    sig.params.length ≤ argumentRoom
  /-- Routines realize calls. -/
  realized : calls.AreRealized S.program S.room S.bound p.signature?

theorem Eval.Safe.yields {α β : Type} {p : Program α} {x : Eval β}
    {post : β → Prop} (h : Safe p x post) : x.Yields post := by
  intro w b w' hx
  have hw := h w
  rw [hx] at hw
  exact hw

/-- **Code that acts as a tree says** realizes the evaluation that carries the
tree out. -/
theorem Frame.Acts.runs {S : Setting} {p : Program Judged} {calls : Calls}
    {inside : Code → Prop} {β : Type} {good : β → Frame → Prop} {f : Frame}
    {x : Act β} (h : f.Acts S.program p.signature? inside good x)
    (hcalls : S.Serves p calls) (callers : List Frame) (w : World) :
    S.Runs callers f w good (x.run calls w) := by
  induction h generalizing w with
  | done h => exact Frame.Runs.pure h
  | step hrest _ hi _ ih => exact Frame.Runs.step_le hrest (hi w) (ih w)
  | fail hrest _ _ hi => exact Frame.Runs.fail hrest (hi w)
  | write hrest _ hsrc _ ih =>
    exact Frame.Runs.step_le hrest (Instr.does_printString hsrc) (ih _)
  | read hrest _ _ ih =>
    obtain ⟨input, output⟩ := w
    cases input with
    | nil => exact Frame.Runs.fail hrest (Instr.fails_readInt rfl)
    | cons n input =>
      exact Frame.Runs.step_le hrest (Instr.does_readInt rfl)
        (ih n ⟨input, output⟩)
  | @call f callee sig args k next hrest _ hargs _ hsig htys _ ih =>
    have hsafe := (hcalls.safe callee sig args hsig htys).yields
    refine Frame.Runs.bind
      (hcalls.realized callee sig args hsig htys hrest hargs callers w) ?_
    rintro v f' w' hv rfl
    exact ih v (hsafe w v w' hv) w'
  | crash hrest _ hroom hsig htys hi =>
    refine Frame.Runs.crash hrest (fun hr => ?_) hi
    have hle := hcalls.room hr _ _ hsig
    rw [← htys, List.length_map] at hle
    omega

end Primer
