import Primer.Proofs.Simulation.Acts

/-!
# Pieces of code for expressions

What each way to put code together does, one lemma for each. The lemmas are
about pieces of code and trees of acts, not about expressions: if the pieces
store or branch on the results of two trees, then the piece that is made of
them does so for the tree that is made of the two.

An operand goes into a temporary of its own, with a smaller number than all
temporaries of the code that follows, so it is still there when it is used
(`Setting.Puts.toTemporary`).

Where calls are realized, code that puts the result of a tree into a place
stores the value of the evaluation that carries the tree out
(`Setting.Puts.stores`), and the same holds of branches and of arguments.
-/

namespace Primer

/-! ## Small facts -/

theorem Made.lt {lo hi : Nat} {name : String} (h : Made lo hi name) :
    lo < hi := by
  obtain ⟨_, n, _, _, hlo, hhi⟩ := h
  exact Nat.lt_of_le_of_lt hlo hhi

theorem ZeroTest.passes_nonZero (b : Bool) :
    nonZero.passes (if b then 1 else 0) = b := by cases b <;> decide

theorem ZeroTest.passes_zero (b : Bool) :
    zero.passes (if b then 1 else 0) = !b := by cases b <;> decide

theorem Code.exists_atLabel? {code : Code} {name : Label}
    (h : name ∈ code.labels) : ∃ rest, code.atLabel? name = some rest := by
  cases hfound : code.atLabel? name with
  | none => exact absurd h (atLabel?_eq_none.mp hfound)
  | some rest => exact ⟨rest, rfl⟩

namespace Frame.Keeps

variable {f f' : Frame} {lo lo' hi hi' : Nat} {dst : Slot}

theorem widen (h : f.Keeps (Made lo hi) f') (hlo : lo' ≤ lo)
    (hhi : hi ≤ hi') : f.Keeps (Made lo' hi') f' :=
  h.mono fun _ hx => hx.mono hlo hhi

theorem toWrites (h : f.Keeps (Made lo hi) f') (hlo : lo' ≤ lo)
    (hhi : hi ≤ hi') : f.Keeps (Writes dst lo' hi') f' :=
  h.mono fun _ hx => Or.inr (hx.mono hlo hhi)

/-- **A value is stored** in a place besides a range of temporaries. -/
theorem stores (h : f.Keeps (Made lo hi) f') (k : Code) (v : Value) :
    ((f'.withRest k).set dst v).slots.get? dst = some v
      ∧ f.Keeps (Writes dst lo hi) ((f'.withRest k).set dst v) := by
  have hwrites : f.Keeps (Writes dst lo hi) f' :=
    h.toWrites (Nat.le_refl _) (Nat.le_refl _)
  exact ⟨Store.get?_set_self _ _ _,
    (hwrites.withRest k).set (Or.inl rfl) v⟩

theorem toMade (h : f.Keeps (Writes dst lo hi) f') (hdst : Made lo' lo dst)
    (hle : lo ≤ hi) : f.Keeps (Made lo' hi) f' := by
  refine h.mono fun x hx => ?_
  rcases hx with rfl | hx
  · exact hdst.mono (Nat.le_refl _) hle
  · exact hx.mono (Nat.le_of_lt hdst.lt) (Nat.le_refl _)

theorem get?_eq (h : f.Keeps (Made lo hi) f') (hdst : Made lo' lo dst) :
    f'.slots.get? dst = f.slots.get? dst :=
  h.slots dst fun hmade => absurd (hdst.disjoint hmade) (Nat.lt_irrefl _)

end Frame.Keeps

namespace Setting.At

variable {S : Setting} {env env' : Env} {code before after k : Code}
  {f f' : Frame} {l : Label} {i : Instr} {lo hi : Nat}

theorem cons (h : S.At env (i :: code) k f) : f.rest = i :: (code ++ k) :=
  h.rest

theorem single (h : S.At env [i] k f) : f.rest = i :: k := h.rest

theorem ready_of_made (h : S.At env code k f)
    (hkeeps : f.Keeps (Made lo hi) f') : f'.Ready S.routine env :=
  h.ready.keeps hkeeps fun _ hx => hx.not_plain

/-- **A run that has come to a label** of the piece goes on after it. -/
theorem runs_label {β : Type} {bound : Nat} {callers : List Frame}
    {w : World} {good : β → Frame → Prop}
    {result : EStateM.Result Stop World β}
    (h : S.At env (before ++ .label l :: after) k f)
    (hready : f'.Ready S.routine env')
    (hlabel : S.routine.code.atLabel? l = some f'.rest)
    (hrun : S.At env' after k (f'.withRest (after ++ k)) →
      (f'.withRest (after ++ k)).Runs S.program S.room bound callers w good
        result) :
    f'.Runs S.program S.room bound callers w good result := by
  have hrest := Option.some.inj (hlabel.symm.trans h.found)
  refine Frame.Runs.step_le hrest (Instr.does_label l) (hrun ?_)
  have hinside := h.append.goOn (hready.withRest _) rfl
  have hcode : S.At env' ([.label l] ++ after) k
      (f'.withRest (.label l :: after ++ k)) := hinside
  exact hcode.append.goOn (hready.withRest _) rfl

end Setting.At

namespace Setting

/-- **A frame is at a piece of code that lies in a part of the routine.** -/
structure AtPart (S : Setting) (part : Code → Prop) (env : Env)
    (code k : Code) (f : Frame) : Prop extends S.At env code k f where
  /-- Whatever is executed in the piece is executed in the part. -/
  covered : ∀ c, c ≠ [] → c <:+ code → part (c ++ k)

namespace AtPart

variable {S : Setting} {part : Code → Prop} {env env' : Env}
  {code code' before after k : Code} {f f' : Frame} {l : Label} {i : Instr}

theorem of_at (h : S.At env code k f) :
    S.AtPart (fun _ => True) env code k f := ⟨h, fun _ _ _ => trivial⟩

/-- Two pieces are one that follows the other. -/
theorem append (h : S.AtPart part env (code ++ code') k f) :
    S.AtPart part env code (code' ++ k) f where
  toAt := h.toAt.append
  covered c hc hsuffix := by
    obtain ⟨first, rfl⟩ := hsuffix
    rw [← List.append_assoc]
    exact h.covered (c ++ code') (by simp [hc])
      ⟨first, (List.append_assoc _ _ _).symm⟩

theorem assoc (h : S.AtPart part env (before ++ code ++ after) k f) :
    S.AtPart part env (before ++ (code ++ after)) k f := by
  rw [List.append_assoc] at h
  exact h

/-- **The run goes on** with the second piece. -/
theorem goOn (h : S.AtPart part env (code ++ code') k f)
    (hready : f'.Ready S.routine env') (hrest : f'.rest = code' ++ k) :
    S.AtPart part env' code' k f' where
  toAt := h.toAt.append.goOn hready hrest
  covered c hc hsuffix :=
    h.covered c hc (hsuffix.trans (List.suffix_append _ _))

theorem in_part (h : S.AtPart part env (i :: code) k f) :
    part f.rest := by
  rw [h.rest]
  exact h.covered _ (List.cons_ne_nil _ _) (List.suffix_refl _)

/-- **A run that has come to a label** of the piece goes on after it. -/
theorem acts_label {sigs : Signatures} {β : Type} {good : β → Frame → Prop}
    {x : Act β} (h : S.AtPart part env (before ++ .label l :: after) k f)
    (hready : f'.Ready S.routine env')
    (hlabel : S.routine.code.atLabel? l = some f'.rest)
    (hacts : S.AtPart part env' after k (f'.withRest (after ++ k)) →
      (f'.withRest (after ++ k)).Acts S.program sigs part good x) :
    f'.Acts S.program sigs part good x := by
  have hrest := Option.some.inj (hlabel.symm.trans h.found)
  have hat : S.AtPart part env' ([.label l] ++ after) k f' :=
    h.goOn hready hrest
  exact .step hrest hat.in_part (fun _ => Instr.does_label l)
    (hacts (hat.goOn (hready.withRest _) rfl))

end AtPart

/-! ## What code does -/

/-- **Code puts the result of a tree into a place** `dst`, in the form that
`encode` gives it. The result has a type, and no other place is written to but
temporaries whose numbers lie in a range. -/
structure Puts (S : Setting) (sigs : Signatures) (env : Env) (code : Code)
    (dst : Slot) (lo hi : Nat) (ty : Ty) (encode : Literal → Value)
    (x : Act Literal) : Prop where
  /-- The range is one. -/
  counted : lo ≤ hi
  /-- The code acts as the tree says and goes on after it. -/
  acts : ∀ {part : Code → Prop} {f : Frame} {k : Code},
    S.AtPart part env code k f →
    f.Acts S.program sigs part (fun v f' => v.ty = ty ∧ f'.rest = k
      ∧ f'.slots.get? dst = some (encode v)
      ∧ f.Keeps (Writes dst lo hi) f') x

/-- **Code forks on the result of a tree**, a truth value, and writes to no
place but to temporaries whose numbers lie in a range. -/
structure Forks (S : Setting) (sigs : Signatures) (env : Env) (code : Code)
    (ifTrue ifFalse : Label) (lo hi : Nat) (x : Act Literal) : Prop where
  /-- The range is one. -/
  counted : lo ≤ hi
  /-- The code acts as the tree says and goes on at one of the labels. -/
  acts : ifTrue ∈ S.routine.code.labels → ifFalse ∈ S.routine.code.labels →
    ∀ {part : Code → Prop} {f : Frame} {k : Code},
    S.AtPart part env code k f →
    f.Acts S.program sigs part (fun v f' => ∃ b, v = .bool b
      ∧ S.routine.code.atLabel? (if b then ifTrue else ifFalse) = some f'.rest
      ∧ f.Keeps (Made lo hi) f') x

/-- **Code does what its destination asks for** with the result of a tree. -/
def Meets (S : Setting) (sigs : Signatures) (env : Env) (code : Code)
    (dest : Destination) (lo hi : Nat) (ty : Ty) (x : Act Literal) : Prop :=
  match dest with
  | .store dst => S.Puts sigs env code dst lo hi ty Literal.encode x
  | .branch ifTrue ifFalse => S.Forks sigs env code ifTrue ifFalse lo hi x

/-- **Code gathers arguments**, of these types, in temporaries whose numbers
lie in a range. -/
structure Gathers (S : Setting) (sigs : Signatures) (env : Env) (code : Code)
    (temps : List Slot) (lo hi : Nat) (tys : List Ty)
    (x : Act (List Literal)) : Prop where
  /-- The range is one. -/
  counted : lo ≤ hi
  /-- The code acts as the tree says and goes on after it. -/
  acts : ∀ {part : Code → Prop} {f : Frame} {k : Code},
    S.AtPart part env code k f →
    f.Acts S.program sigs part (fun vs f' => vs.map Literal.ty = tys
      ∧ f'.rest = k
      ∧ temps.map f'.slots.get? = (vs.map Literal.encode).map some
      ∧ f.Keeps (Made lo hi) f') x

variable {S : Setting} {sigs : Signatures} {env : Env}
  {code code' leftCode rightCode : Code} {n₀ n₁ n₂ n₃ n₄ lo hi : Nat}
  {dst temp left right : Slot} {ifTrue ifFalse next : Label} {i : Instr}
  {v : Literal} {ty tyl tyr : Ty} {tys : List Ty} {x y : Act Literal}
  {encode : Literal → Value}

theorem exists_atLabel? (htrue : ifTrue ∈ S.routine.code.labels)
    (hfalse : ifFalse ∈ S.routine.code.labels) (b : Bool) :
    ∃ rest, S.routine.code.atLabel? (if b then ifTrue else ifFalse)
      = some rest := by
  cases b with
  | true => exact Code.exists_atLabel? htrue
  | false => exact Code.exists_atLabel? hfalse

/-! ## Values -/

theorem Puts.single (hle : lo ≤ hi) (hty : v.ty = ty)
    (hdoes : ∀ f w, i.Does S.program f w (f.set dst (encode v)) w) :
    S.Puts sigs env [i] dst lo hi ty encode (pure v) where
  counted := hle
  acts hat := .last hat.single hat.in_part (hdoes _)
    ⟨hty, rfl, Store.get?_set_self _ _ _,
      ((Frame.Keeps.refl _ _).withRest _).set (Or.inl rfl) _⟩

/-- A truth value that a jump goes to. -/
theorem Forks.jump (hle : lo ≤ hi) (b : Bool) :
    S.Forks sigs env [.jump (if b then ifTrue else ifFalse)] ifTrue ifFalse
      lo hi (pure (.bool b)) where
  counted := hle
  acts htrue hfalse _ f k hat := by
    obtain ⟨rest, hlabel⟩ := exists_atLabel? htrue hfalse b
    exact .last hat.single hat.in_part
      (fun _ => Instr.does_jump (hat.ready.atLabel? hlabel))
      ⟨b, rfl, hlabel, (Frame.Keeps.refl _ f).withRest _⟩

/-- The value of a variable, copied. -/
theorem Puts.variable {name : Ident} (hname : Ident.Plain name)
    (hle : lo ≤ hi) (hty : ∀ v, env name = some v → v.ty = ty) :
    S.Puts sigs env [.move dst name] dst lo hi ty Literal.encode
      (.ofEval (env.read S.routine.name name)) where
  counted := hle
  acts {_ f k} hat := by
    have hslot := hat.ready.slots name hname
    unfold Env.read
    cases hv : env name with
    | some v =>
      rw [hv] at hslot
      exact .last hat.single hat.in_part
        (fun _ => Instr.does_move hslot)
        ⟨hty v hv, rfl, (Frame.Keeps.refl _ f).stores _ _⟩
    | none =>
      rw [hv] at hslot
      rw [← hat.ready.name_eq]
      exact .fail hat.single hat.in_part trivial
        fun _ => Instr.fails_move hslot

/-- The value of a variable, tested. -/
theorem Forks.variable {name : Ident} (hname : Ident.Plain name)
    (hle : lo ≤ hi) (hbool : ∀ v, env name = some v → v.ty = .bool) :
    S.Forks sigs env [.branchZero .nonZero name ifTrue ifFalse] ifTrue ifFalse
      lo hi (.ofEval (env.read S.routine.name name)) where
  counted := hle
  acts htrue hfalse _ f k hat := by
    have hslot := hat.ready.slots name hname
    unfold Env.read
    cases hv : env name with
    | some v =>
      rw [hv] at hslot
      obtain ⟨b, rfl⟩ := Literal.eq_bool (hbool v hv)
      obtain ⟨rest, hlabel⟩ := exists_atLabel? htrue hfalse b
      refine .last hat.single hat.in_part
        (fun _ => Instr.does_branchZero hslot ?_)
        ⟨b, rfl, hlabel, (Frame.Keeps.refl _ f).withRest _⟩
      rw [ZeroTest.passes_nonZero]
      exact hat.ready.atLabel? hlabel
    | none =>
      rw [hv] at hslot
      rw [← hat.ready.name_eq]
      exact .fail hat.single hat.in_part trivial
        fun _ => Instr.fails_branchZero hslot

/-! ## Operands -/

/-- **An operand goes into a temporary**, and the run goes on with the code
that follows. -/
theorem Puts.toTemporary (h : S.Puts sigs env code temp n₁ n₂ ty encode x)
    (htemp : Made n₀ n₁ temp) {part : Code → Prop} {f : Frame} {k : Code}
    (hat : S.AtPart part env (code ++ code') k f) :
    f.Acts S.program sigs part (fun v f' => v.ty = ty
      ∧ S.AtPart part env code' k f'
      ∧ f'.slots.get? temp = some (encode v) ∧ f.Keeps (Made n₀ n₂) f') x := by
  refine (h.acts hat.append).mono ?_
  rintro v f' ⟨hty, hrest, hslot, hkeeps⟩
  have hmade := hkeeps.toMade htemp h.counted
  exact ⟨hty, hat.goOn (hat.ready_of_made hmade) hrest, hslot, hmade⟩

/-- **Two operands go into temporaries**, the first one first, and the run
goes on with the code that follows. -/
theorem Puts.both
    (hlhs : S.Puts sigs env leftCode left n₁ n₂ tyl Literal.encode x)
    (hrhs : S.Puts sigs env rightCode right n₃ n₄ tyr Literal.encode y)
    (hleft : Made n₀ n₁ left) (hright : Made n₂ n₃ right) {β : Type}
    {use : Literal → Literal → Act β} {good : β → Frame → Prop}
    {part : Code → Prop} {f : Frame} {k : Code}
    (hat : S.AtPart part env (leftCode ++ rightCode ++ code) k f)
    (huse : ∀ a b f', a.ty = tyl → b.ty = tyr →
      S.AtPart part env code k f' → f'.slots.get? left = some a.encode →
      f'.slots.get? right = some b.encode → f.Keeps (Made n₀ n₄) f' →
      f'.Acts S.program sigs part good (use a b)) :
    f.Acts S.program sigs part good (do
      let a ← x
      let b ← y
      use a b) := by
  refine (hlhs.toTemporary hleft hat.assoc).bind ?_
  rintro a f₁ ⟨ha, hat₁, hslot₁, hkeeps₁⟩
  refine (hrhs.toTemporary hright hat₁).bind ?_
  rintro b f₂ ⟨hb, hat₂, hslot₂, hkeeps₂⟩
  -- the second operand writes to temporaries with greater numbers only
  have hstay : f₂.slots.get? left = some a.encode :=
    (hkeeps₂.get?_eq (hleft.mono (Nat.le_refl _) hlhs.counted)).trans hslot₁
  have hlower := Nat.le_trans (Nat.le_of_lt hleft.lt) hlhs.counted
  have hupper := Nat.le_trans (Nat.le_of_lt hright.lt) hrhs.counted
  exact huse a b f₂ ha hb hat₂ hstay hslot₂
    ((hkeeps₁.widen (Nat.le_refl _) hupper).trans
      (hkeeps₂.widen hlower (Nat.le_refl _)))

/-- Two operands and the ranges of their temporaries. -/
theorem Puts.counted_both
    (hlhs : S.Puts sigs env leftCode left n₁ n₂ tyl Literal.encode x)
    (hrhs : S.Puts sigs env rightCode right n₃ n₄ tyr Literal.encode y)
    (hleft : Made n₀ n₁ left) (hright : Made n₂ n₃ right) : n₀ ≤ n₄ := by
  have h₁ := hleft.lt
  have h₂ := hlhs.counted
  have h₃ := hright.lt
  have h₄ := hrhs.counted
  omega

/-- **Arithmetic.** -/
theorem Puts.arith {op : ArithOp}
    (hlhs : S.Puts sigs env leftCode left n₁ n₂ .int Literal.encode x)
    (hrhs : S.Puts sigs env rightCode right n₃ n₄ .int Literal.encode y)
    (hleft : Made n₀ n₁ left) (hright : Made n₂ n₃ right) :
    S.Puts sigs env (leftCode ++ rightCode ++ [.arith op dst left right]) dst
      n₀ n₄ .int Literal.encode (do
        let a ← x
        let b ← y
        .ofEval (op.apply S.routine.name a b)) where
  counted := hlhs.counted_both hrhs hleft hright
  acts hat := by
    refine hlhs.both hrhs hleft hright hat ?_
    intro a b f' ha hb hat' hslot₁ hslot₂ hkeeps
    obtain ⟨m, rfl⟩ := Literal.eq_int ha
    obtain ⟨n, rfl⟩ := Literal.eq_int hb
    show f'.Acts S.program sigs _ _ (.ofEval
      (if op.divides ∧ n = 0 then Eval.fail (.divisionByZero S.routine.name)
        else pure (Literal.int (Int64.ofInt (op.exact m.toInt n.toInt)))))
    split
    · next hzero =>
      rw [← hat'.ready.name_eq]
      exact .fail hat'.single hat'.in_part trivial
        fun _ => Instr.fails_arith hslot₁ hslot₂ hzero
    · next hzero =>
      exact .last hat'.single hat'.in_part
        (fun _ => Instr.does_arith hslot₁ hslot₂ hzero)
        ⟨rfl, rfl, hkeeps.stores _ _⟩

/-- **A comparison.** -/
theorem Forks.compare {op : Comparison}
    (hlhs : S.Puts sigs env leftCode left n₁ n₂ .int Literal.encode x)
    (hrhs : S.Puts sigs env rightCode right n₃ n₄ .int Literal.encode y)
    (hleft : Made n₀ n₁ left) (hright : Made n₂ n₃ right) :
    S.Forks sigs env (leftCode ++ rightCode
        ++ [.branchCompare op left right ifTrue ifFalse]) ifTrue ifFalse n₀ n₄
      (do
        let a ← x
        let b ← y
        .ofEval (op.apply a b)) where
  counted := hlhs.counted_both hrhs hleft hright
  acts htrue hfalse _ f k hat := by
    refine hlhs.both hrhs hleft hright hat ?_
    intro a b f' ha hb hat' hslot₁ hslot₂ hkeeps
    obtain ⟨m, rfl⟩ := Literal.eq_int ha
    obtain ⟨n, rfl⟩ := Literal.eq_int hb
    obtain ⟨rest, hlabel⟩ :=
      exists_atLabel? htrue hfalse (op.exact m.toInt n.toInt)
    exact .last hat'.single hat'.in_part
      (fun _ => Instr.does_branchCompare hslot₁ hslot₂
        (hat'.ready.atLabel? hlabel)) ⟨_, rfl, hlabel, hkeeps.withRest _⟩

/-! ## Conditions -/

/-- **A connective**: the first operand decides the matter or leaves it open,
in which case it goes to the label `next`. -/
theorem Forks.connective {op : Connective} {onTrue onFalse : Label}
    (hlhs : S.Forks sigs env leftCode onTrue onFalse n₁ n₂ x)
    (hrhs : S.Forks sigs env rightCode ifTrue ifFalse n₂ n₃ y) (hle : n₀ ≤ n₁)
    (hlabels : ∀ b : Bool, (if b then onTrue else onFalse)
      = if op.decides b then (if b then ifTrue else ifFalse) else next) :
    S.Forks sigs env (leftCode ++ [.label next] ++ rightCode) ifTrue ifFalse
      n₀ n₃ (do
        let a ← x
        let first ← .ofEval a.asBool
        if op.decides first then return .bool first else y) where
  counted := Nat.le_trans hle (Nat.le_trans hlhs.counted hrhs.counted)
  acts htrue hfalse part f k hat := by
    -- whatever the value is, the first operand goes to a label that is there
    have hnext := hat.assoc.mem_labels
    have hmem : ∀ b : Bool, (if b then onTrue else onFalse)
        ∈ S.routine.code.labels := by
      intro b
      rw [hlabels b]
      split
      · split
        · exact htrue
        · exact hfalse
      · exact hnext
    refine (hlhs.acts (hmem true) (hmem false) hat.assoc.append).bind ?_
    rintro a f₁ ⟨b, rfl, hlabel, hkeeps⟩
    rw [hlabels b] at hlabel
    show f₁.Acts S.program sigs part _
      (if op.decides b then pure (Literal.bool b) else y)
    split
    -- the first operand has decided
    · next hdecides =>
      rw [if_pos hdecides] at hlabel
      exact .done ⟨b, rfl, hlabel, hkeeps.widen hle hrhs.counted⟩
    -- the run is at the label `next`, in front of the second operand
    · next hdecides =>
      rw [if_neg hdecides] at hlabel
      refine hat.assoc.acts_label (hat.ready_of_made hkeeps) hlabel
        fun hat₁ => ?_
      refine (hrhs.acts htrue hfalse hat₁).mono ?_
      rintro v f₂ ⟨c, hv, hlabel₂, hkeeps₂⟩
      exact ⟨c, hv, hlabel₂,
        ((hkeeps.widen hle hrhs.counted).withRest _).trans
          (hkeeps₂.widen (Nat.le_trans hle hlhs.counted) (Nat.le_refl _))⟩

/-- **A negation** exchanges the labels. -/
theorem Forks.not (h : S.Forks sigs env code ifFalse ifTrue lo hi x) :
    S.Forks sigs env code ifTrue ifFalse lo hi (do
      let a ← x
      let holds ← .ofEval a.asBool
      return .bool (!holds)) where
  counted := h.counted
  acts htrue hfalse _ f k hat := by
    refine (h.acts hfalse htrue hat).bind ?_
    rintro a f' ⟨b, rfl, hlabel, hkeeps⟩
    refine .done ⟨!b, rfl, ?_, hkeeps⟩
    cases b <;> exact hlabel

/-- **A stored truth value is branched on.** -/
theorem Forks.ofPut (h : S.Puts sigs env code temp n₁ n₂ .bool Literal.encode x)
    (htemp : Made n₀ n₁ temp) :
    S.Forks sigs env (code ++ [.branchZero .zero temp ifFalse ifTrue]) ifTrue
      ifFalse n₀ n₂ x where
  counted := Nat.le_trans (Nat.le_of_lt htemp.lt) h.counted
  acts htrue hfalse _ f k hat := by
    refine (h.toTemporary htemp hat).andThen ?_
    rintro a f' ⟨ha, hat', hslot, hkeeps⟩
    obtain ⟨b, rfl⟩ := Literal.eq_bool ha
    obtain ⟨rest, hlabel⟩ := exists_atLabel? htrue hfalse b
    refine .last hat'.single hat'.in_part
      (fun _ => Instr.does_branchZero hslot ?_)
      ⟨b, rfl, hlabel, hkeeps.withRest _⟩
    rw [ZeroTest.passes_zero]
    cases b <;> exact hat'.ready.atLabel? hlabel

/-- **A branch on a truth value puts one of two values**, with which both ways
go on after the piece. -/
theorem Forks.choose {yes no join : Label} {onTrue onFalse : Instr}
    (h : S.Forks sigs env code yes no n₁ n₂ x) (hle : n₀ ≤ n₁)
    (htrue : ∀ f w, onTrue.Does S.program f w
      (f.set dst (encode (.bool true))) w)
    (hfalse : ∀ f w, onFalse.Does S.program f w
      (f.set dst (encode (.bool false))) w) :
    S.Puts sigs env (code ++ [.label yes, onTrue, .jump join, .label no,
      onFalse, .label join]) dst n₀ n₂ .bool encode x where
  counted := Nat.le_trans hle h.counted
  acts {part f k} hat := by
    -- the piece, divided at the labels `no` and `join`
    have hno : S.AtPart part env ((code ++ [.label yes, onTrue, .jump join])
        ++ .label no :: [onFalse, .label join]) k f := by
      rw [List.append_assoc]
      exact hat
    have hjoin : S.AtPart part env ((code ++ [.label yes, onTrue,
        .jump join, .label no, onFalse]) ++ .label join :: []) k f := by
      rw [List.append_assoc]
      exact hat
    have hend : part ([.label join] ++ k) :=
      hjoin.covered _ (List.cons_ne_nil _ _) (List.suffix_append _ _)
    refine (h.acts hat.mem_labels hno.mem_labels hat.append).andThen ?_
    rintro a f' ⟨b, rfl, hlabel, hkeeps⟩
    have hready := hat.ready_of_made hkeeps
    have hwrites : f.Keeps (Writes dst n₀ n₂) f' :=
      hkeeps.toWrites hle (Nat.le_refl _)
    cases b with
    | true =>
      refine hat.acts_label hready hlabel fun hat₁ => ?_
      have hjump : part
          ([.jump join, .label no, onFalse, .label join] ++ k) :=
        hat₁.covered _ (List.cons_ne_nil _ _) (List.suffix_cons _ _)
      refine .step hat₁.cons hat₁.in_part (htrue _) ?_
      refine .step rfl hjump (fun _ =>
        Instr.does_jump (hat₁.ready.atLabel? hjoin.found)) ?_
      exact .last rfl hend (fun _ => Instr.does_label join)
        ⟨rfl, rfl, Store.get?_set_self _ _ _,
          ((hwrites.withRest _).set (Or.inl rfl) _).withRest _⟩
    | false =>
      refine hno.acts_label hready hlabel fun hat₁ => ?_
      refine .step hat₁.cons hat₁.in_part (hfalse _) ?_
      exact .last rfl hend (fun _ => Instr.does_label join)
        ⟨rfl, rfl, Store.get?_set_self _ _ _,
          ((hwrites.withRest _).set (Or.inl rfl) _).withRest _⟩

/-- **A branch is put into a place** by way of a flag. -/
theorem Puts.ofFlag {flag : Slot}
    (h : S.Puts sigs env code flag n₁ n₂ ty Literal.encode x)
    (hflag : Made n₀ n₁ flag) : S.Puts sigs env (code ++ [.move dst flag])
      dst n₀ n₂ ty Literal.encode x where
  counted := Nat.le_trans (Nat.le_of_lt hflag.lt) h.counted
  acts hat := by
    refine (h.toTemporary hflag hat).andThen ?_
    rintro a f' ⟨ha, hat', hslot, hkeeps⟩
    exact .last hat'.single hat'.in_part
      (fun _ => Instr.does_move hslot) ⟨ha, rfl, hkeeps.stores _ _⟩

/-! ## Input and conversions -/

/-- **An input**: the prompt is written, then the integer is read. -/
theorem Puts.input (h : S.Puts sigs env code temp n₁ n₂ .str Literal.encode x)
    (htemp : Made n₀ n₁ temp) :
    S.Puts sigs env (code ++ [.printString temp, .readInt dst]) dst n₀ n₂ .int
      Literal.encode (do
        let a ← x
        let text ← .ofEval a.asStr
        .write text (.read fun n => return .int n)) where
  counted := Nat.le_trans (Nat.le_of_lt htemp.lt) h.counted
  acts hat := by
    refine (h.toTemporary htemp hat).bind ?_
    rintro a f' ⟨ha, hat', hslot, hkeeps⟩
    obtain ⟨text, rfl⟩ := Literal.eq_str ha
    refine .write hat'.cons hat'.in_part hslot (.read rfl ?_ fun n => ?_)
    · exact hat'.covered _ (List.cons_ne_nil _ _) (List.suffix_cons _ _)
    · exact .done ⟨rfl, rfl, hkeeps.stores _ _⟩

/-- **A text read as an integer.** -/
theorem Puts.strToInt
    (h : S.Puts sigs env code temp n₁ n₂ .str Literal.encode x)
    (htemp : Made n₀ n₁ temp) :
    S.Puts sigs env (code ++ [.strToInt dst temp]) dst n₀ n₂ .int
      Literal.encode (do
        let a ← x
        .ofEval (Conversion.toInt.apply a)) where
  counted := Nat.le_trans (Nat.le_of_lt htemp.lt) h.counted
  acts hat := by
    refine (h.toTemporary htemp hat).bind ?_
    rintro a f' ⟨ha, hat', hslot, hkeeps⟩
    obtain ⟨text, rfl⟩ := Literal.eq_str ha
    show f'.Acts S.program sigs _ _ (.ofEval (Eval.numeral text))
    unfold Eval.numeral
    cases hn : toInteger? text with
    | none =>
      exact .fail hat'.single hat'.in_part trivial
        fun _ => Instr.fails_strToInt hslot hn
    | some n =>
      exact .last hat'.single hat'.in_part
        (fun _ => Instr.does_strToInt hslot hn)
        ⟨rfl, rfl, hkeeps.stores _ _⟩

/-- **An integer written as a text.** -/
theorem Puts.intToStr
    (h : S.Puts sigs env code temp n₁ n₂ .int Literal.encode x)
    (htemp : Made n₀ n₁ temp) :
    S.Puts sigs env (code ++ [.intToStr dst temp]) dst n₀ n₂ .str
      Literal.encode (do
        let a ← x
        .ofEval (Conversion.toStr.apply a)) where
  counted := Nat.le_trans (Nat.le_of_lt htemp.lt) h.counted
  acts hat := by
    refine (h.toTemporary htemp hat).bind ?_
    rintro a f' ⟨ha, hat', hslot, hkeeps⟩
    obtain ⟨n, rfl⟩ := Literal.eq_int ha
    exact .last hat'.single hat'.in_part
      (fun _ => Instr.does_intToStr hslot) ⟨rfl, rfl, hkeeps.stores _ _⟩

/-- **A conversion with nothing to do**: what is stored is already what the
converted value is in the machine. -/
theorem Puts.convert {target : Conversion} {result : Ty}
    (h : S.Puts sigs env code dst lo hi ty encode x)
    (hsame : ∀ a : Literal, a.ty = ty → ∃ b, target.apply a = pure b
      ∧ b.ty = result ∧ b.encode = encode a) :
    S.Puts sigs env code dst lo hi result Literal.encode (do
      let a ← x
      .ofEval (target.apply a)) where
  counted := h.counted
  acts hat := by
    refine (h.acts hat).bind ?_
    rintro a f' ⟨ha, hrest, hslot, hkeeps⟩
    obtain ⟨b, hb, hty, hencode⟩ := hsame a ha
    rw [hb]
    exact .done ⟨hty, hrest, hencode ▸ hslot, hkeeps⟩

/-! ## Calls -/

theorem Gathers.nil (hle : lo ≤ hi) :
    S.Gathers sigs env [] [] lo hi [] (pure []) where
  counted := hle
  acts {_ f _} hat := .done ⟨rfl, hat.rest, rfl, Frame.Keeps.refl _ f⟩

/-- **One argument, then the others.** -/
theorem Gathers.cons {temps : List Slot} {xs : Act (List Literal)}
    (hx : S.Puts sigs env leftCode temp n₁ n₂ ty Literal.encode x)
    (htemp : Made n₀ n₁ temp)
    (hxs : S.Gathers sigs env rightCode temps n₂ n₃ tys xs) :
    S.Gathers sigs env (leftCode ++ rightCode) (temp :: temps) n₀ n₃
      (ty :: tys) (do
        let value ← x
        let values ← xs
        return value :: values) where
  counted := Nat.le_trans (Nat.le_of_lt htemp.lt)
    (Nat.le_trans hx.counted hxs.counted)
  acts {_ f k} hat := by
    refine (hx.toTemporary htemp hat).bind ?_
    rintro v f₁ ⟨hv, hat₁, hslot, hkeeps₁⟩
    refine (hxs.acts hat₁).bind ?_
    rintro vs f₂ ⟨hvs, hrest, hslots, hkeeps₂⟩
    -- as with two operands
    have hstay : f₂.slots.get? temp = some v.encode :=
      (hkeeps₂.get?_eq (htemp.mono (Nat.le_refl _) hx.counted)).trans hslot
    refine .done ⟨?_, hrest, ?_, ?_⟩
    · rw [List.map_cons, hv, hvs]
    · rw [List.map_cons, List.map_cons, List.map_cons, hslots, hstay]
    · exact (hkeeps₁.widen (Nat.le_refl _) hxs.counted).trans
        (hkeeps₂.widen (Nat.le_trans (Nat.le_of_lt htemp.lt) hx.counted)
          (Nat.le_refl _))

/-- **A call**: the arguments are gathered and set aside, the routine is
called, and the run goes on with the code that follows. -/
theorem Gathers.acts_call {temps : List Slot} {xs : Act (List Literal)}
    {callee : Ident} {sig : Signature} {after : Code} {β : Type}
    {use : Literal → Act β} {good : β → Frame → Prop}
    (hxs : S.Gathers sigs env code temps lo hi sig.params xs)
    (hsig : sigs callee = some sig) {part : Code → Prop} {f : Frame}
    {k : Code} (hat : S.AtPart part env
      (code ++ setArguments 0 temps ++ .call callee :: after) k f)
    (huse : ∀ v f', v.ty = sig.ret → S.AtPart part env after k f' →
      f'.received = some v.encode → f.Keeps (Made lo hi) f' →
      f'.Acts S.program sigs part good (use v)) :
    f.Acts S.program sigs part good (do
      let values ← xs
      .call callee values use) := by
  refine (hxs.acts hat.assoc.append).bind ?_
  rintro vs f₁ ⟨htys, hrest, hslots, hkeeps⟩
  have hready := hat.ready_of_made hkeeps
  have hlength : temps.length = vs.length := by
    simpa using congrArg List.length hslots
  have hat₁ := hat.assoc.goOn hready hrest
  have hnone : f₁.arguments = .numbered [] := hready.arguments
  refine Frame.Acts.setAside hsig htys hat₁.append.rest
    hat₁.append.covered hnone rfl (Nat.zero_le _) hslots (by simp) fun hroom =>
      ?_
  -- the frame that comes back is the one that called, with a result to fetch
  have hat₂ : S.AtPart part env ([.call callee] ++ after) k
      (f₁.withRest (.call callee :: after ++ k)) :=
    hat₁.goOn (hready.withRest _) rfl
  refine .call rfl hat₂.in_part rfl hroom hsig htys fun v hv => ?_
  exact huse v _ hv
    (hat₂.goOn ⟨hready.routine, rfl, hready.slots⟩ rfl) rfl
    ⟨hkeeps.routine, hat.ready.arguments.symm, hkeeps.slots⟩

/-- **The value of a call.** -/
theorem Gathers.call {temps : List Slot} {xs : Act (List Literal)}
    {callee : Ident} {sig : Signature}
    (hxs : S.Gathers sigs env code temps lo hi sig.params xs)
    (hsig : sigs callee = some sig) :
    S.Puts sigs env (code ++ setArguments 0 temps
      ++ [.call callee, .fetchResult dst]) dst lo hi sig.ret Literal.encode
      (do
        let values ← xs
        .call callee values fun v => return v) where
  counted := hxs.counted
  acts {_ f k} hat := by
    refine hxs.acts_call hsig hat fun v f' hv hat' hreceived hkeeps => ?_
    refine .last hat'.single hat'.in_part
      (fun _ => Instr.does_fetchResult hreceived)
      ⟨hv, rfl, Store.get?_set_self _ _ _, ?_⟩
    have hwrites : f.Keeps (Writes dst lo hi) f' :=
      hkeeps.toWrites (Nat.le_refl _) (Nat.le_refl _)
    have hfetched : f.Keeps (Writes dst lo hi)
        { f'.withRest k with received := none } :=
      ⟨hwrites.routine, hwrites.arguments, hwrites.slots⟩
    exact hfetched.set (Or.inl rfl) _

/-! ## Evaluations -/

section Evaluations

variable {p : Program Judged} {calls : Calls}

/-- **What is put into a place is stored** by the evaluation that carries the
tree out. -/
theorem Puts.stores
    (h : S.Puts p.signature? env code dst lo hi ty encode x)
    (hcalls : S.Serves p calls) :
    S.Stores env code dst lo hi encode (x.run calls) where
  counted := h.counted
  runs hat callers w :=
    ((h.acts (.of_at hat)).runs hcalls callers w).mono_good
      fun _ _ hgood => hgood.2

/-- **A fork is a branch** by the evaluation that carries the tree out. -/
theorem Forks.branches
    (h : S.Forks p.signature? env code ifTrue ifFalse lo hi x)
    (hcalls : S.Serves p calls) :
    S.Branches env code ifTrue ifFalse lo hi (x.run calls) where
  counted := h.counted
  runs htrue hfalse _ _ hat callers w :=
    (h.acts htrue hfalse (.of_at hat)).runs hcalls callers w

/-- What the destination asks for is done with the value of the evaluation
that carries the tree out. -/
theorem Meets.evaluates {dest : Destination}
    (h : S.Meets p.signature? env code dest lo hi ty x)
    (hcalls : S.Serves p calls) :
    S.Evaluates env code dest lo hi (x.run calls) := by
  cases dest with
  | store dst => exact Puts.stores h hcalls
  | branch ifTrue ifFalse => exact Forks.branches h hcalls

/-- **A call** is made by the evaluation that carries the tree out, and the
run goes on with the code that follows. -/
theorem Gathers.runs_call {temps : List Slot} {xs : Act (List Literal)}
    {callee : Ident} {sig : Signature} {after : Code}
    (hxs : S.Gathers p.signature? env code temps lo hi sig.params xs)
    (hcalls : S.Serves p calls) (hsig : p.signature? callee = some sig)
    {f : Frame} {k : Code} (hat : S.At env
      (code ++ setArguments 0 temps ++ .call callee :: after) k f)
    (callers : List Frame) (w : World) :
    S.Runs callers f w (fun _ f' => S.At env after k f') ((do
      let values ← xs.run calls
      calls callee values) w) := by
  have hacts := hxs.acts_call hsig (.of_at hat)
    fun v f' _ hat' _ _ => Frame.Acts.done (b := v) hat'.toAt
  have hruns := hacts.runs hcalls callers w
  simpa only [Act.run_bind, Act.run, bind_pure] using hruns

/-- **An operand goes into a temporary**, and the run goes on with the code
that follows. -/
theorem Stores.toTemporary {x : Eval Literal}
    (h : S.Stores env code temp n₁ n₂ encode x)
    (htemp : Made n₀ n₁ temp) {f : Frame} {k : Code}
    (hat : S.At env (code ++ code') k f) (callers : List Frame) (w : World) :
    S.Runs callers f w (fun v f' => S.At env code' k f'
      ∧ f'.slots.get? temp = some (encode v)
      ∧ f.Keeps (Made n₀ n₂) f') (x w) := by
  refine (h.runs hat.append callers w).mono_good ?_
  rintro v f' ⟨hrest, hslot, hkeeps⟩
  have hmade := hkeeps.toMade htemp h.counted
  exact ⟨hat.append.goOn (hat.ready_of_made hmade) hrest, hslot, hmade⟩

end Evaluations

end Setting

end Primer
