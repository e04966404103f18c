import Primer.Proofs.Emission.Variables
import Primer.Proofs.Simulation.Answers
import Primer.Proofs.Typing.Annotations

/-!
# Code that stores a truth value and code that branches on it

For an expression whose value is a truth value, code can be emitted in two
modes: it stores the value in a place, or it goes on at one of two labels. In
either mode there are expressions for which code is emitted in the other one
first, and operands may do so again.

The modes agree nevertheless (`Program.modes_agree`). Both pieces are code for
the same tree of acts, which is that of the expression, so that everything that
is seen of them is the same: what they write, read and call, how they fail,
and whether they come to an end at all. The variables of the frame are left
alone at all times.

A piece of code is taken as it stands in some routine, with any code around
it, and may have been emitted at any time (`Expr.Piece`). There are such pieces
for every expression, in both modes (`TypedProgram.Emits.exists_pieces`).
-/

namespace Primer

open SymbolTable

/-! ## Frames that bind variables -/

/-- **A frame binds variables to values of their types**, as far as it binds
them. -/
def Frame.Binds (Γ : Context) (f : Frame) : Prop :=
  ∀ name ty, (name, ty) ∈ Γ → ∀ value, f.slots.get? name = some value →
    ∃ v : Literal, v.ty = ty ∧ v.encode = value

theorem Literal.exists_encode (value : Value) :
    ∃ v : Literal, v.encode = value := by
  cases value with
  | int n => exact ⟨.int n, rfl⟩
  | str s => exact ⟨.str s, rfl⟩

/-- **A value is known** by its type and what the machine has for it. -/
theorem Literal.encode_inj {v v' : Literal} (hty : v.ty = v'.ty)
    (h : v.encode = v'.encode) : v = v' := by
  cases v with
  | int n => cases v' <;> cases hty; cases h; rfl
  | str s => cases v' <;> cases hty; cases h; rfl
  | unit => cases v' <;> cases hty; rfl
  | bool b =>
    cases v' <;> cases hty
    next b' => cases b <;> cases b' <;> first | rfl | cases h

/-- **A frame that binds variables represents an environment** that is typed.
-/
theorem Frame.Binds.exists_env {Γ : Context} {f : Frame} (h : f.Binds Γ)
    (hΓ : Γ.IsFunctional) : ∃ env : Env, env.IsTyped Γ
      ∧ ∀ x, f.slots.get? x = (env x).map Literal.encode := by
  have hname : ∀ x, ∃ v? : Option Literal,
      f.slots.get? x = v?.map Literal.encode
      ∧ ∀ ty, (x, ty) ∈ Γ → ∀ v, v? = some v → v.ty = ty := by
    intro x
    cases hvalue : f.slots.get? x with
    | none => exact ⟨none, rfl, nofun⟩
    | some value =>
      by_cases hmem : ∃ ty, (x, ty) ∈ Γ
      · obtain ⟨ty, hmem⟩ := hmem
        obtain ⟨v, rfl, rfl⟩ := h x ty hmem value hvalue
        refine ⟨some v, rfl, fun ty' hmem' v' hv' => ?_⟩
        cases hv'
        exact hΓ x _ _ hmem hmem'
      · obtain ⟨v, rfl⟩ := Literal.exists_encode value
        exact ⟨some v, rfl, fun ty hty => absurd ⟨ty, hty⟩ hmem⟩
  obtain ⟨env, henv⟩ := Classical.skolem.mp hname
  exact ⟨env, fun x ty hmem => (henv x).2 ty hmem, fun x => (henv x).1⟩

/-- **The variables in sight of an occurrence have plain names** if all names
are plain. -/
theorem Program.HasPlainNames.occurrence {p : Program Judged}
    (h : p.HasPlainNames) (hwell : p.WellTyped) {d : Definition Judged}
    (hd : d ∈ p.bodies) {o : Context × Expr Judged} (ho : o ∈ d.occurrences) :
    ∀ b ∈ o.1, Ident.Plain b.1 := by
  intro b hb
  obtain ⟨-, _, Γ, _, heffect⟩ := hwell.exists_haveEffect hd
  obtain ⟨-, -, hnames⟩ := heffect.context
  rcases hnames b ((heffect.isSound o ho).1 hb) with hparam | hintroduced
  · rcases List.mem_append.mp hd with hd | hd
    · exact h.parameters d hd b hparam
    · cases List.mem_singleton.mp hd
      cases hparam
  · exact h.introduced d hd b.1 hintroduced

/-! ## Pieces of code -/

namespace Expr

/-- **A piece of code for an expression**, emitted for a destination, that
stands in a routine and runs over the table `symbols`. -/
structure Piece (e : Expr Judged) (dest : Destination)
    (symbols : SymbolTable) where
  /-- The body that the piece was emitted for. -/
  site : Site
  /-- The table before the emission. -/
  before : SymbolTable
  /-- The table after it. -/
  after : SymbolTable
  /-- The code. -/
  code : Code
  /-- The code is what is emitted. -/
  emitted : (e.emit site dest).run before = (code, after)
  /-- What has a name after the emission has it when the code is executed. -/
  window : Window symbols before after
  /-- The texts that any code may print have their names. -/
  constants : site.constants.Mean symbols
  /-- The routine that the piece stands in. -/
  routine : Routine
  /-- The code that follows the piece there. -/
  rest : Code
  /-- The piece stands there. -/
  stands : code ++ rest <:+ routine.code
  /-- No label is defined twice. -/
  distinct : routine.code.labels.Nodup
  /-- The routine ends as every routine does. -/
  exit : routine.code.atLabel? site.exit = some [.label site.exit, .leave]
  /-- The labels of the destination are defined outside of the piece. -/
  exits : ∀ l ∈ dest.exits, l ∈ routine.code.labels ∧ l ∉ code.labels
  /-- They are different. -/
  differ : dest.exits.Nodup
  /-- The place of the destination is no variable. -/
  spares : dest.SparesVariables

namespace Piece

variable {e : Expr Judged} {dest : Destination} {symbols : SymbolTable}
  (P : e.Piece dest symbols)

/-- **Code that lies in the piece**: it starts there and goes on after it. -/
def Inside (code : Code) : Prop :=
  ∃ part, part ≠ [] ∧ part <:+ P.code ∧ code = part ++ P.rest

/-- **The states in the piece** and in the calls that are made there, while
the calls in `base` wait. -/
abbrev Region (base : List Frame) : Machine → Prop :=
  Machine.Within P.Inside base

/-- **A state at the start of the piece.** No argument has been set aside: no
code is emitted for an expression between an argument and its call. -/
structure Starts (m : Machine) : Prop where
  /-- The routine is executed. -/
  routine : m.frame.routine = P.routine
  /-- No argument has been set aside. -/
  arguments : m.frame.arguments = .empty
  /-- The piece is executed next. -/
  rest : m.frame.rest = P.code ++ P.rest

/-- The state at the start of the piece with these values in its places. -/
def start (slots : Store Slot) (callers : List Frame) (s : Session) :
    Machine :=
  ⟨⟨P.routine, P.code ++ P.rest, slots, .empty, none, none⟩, callers, s⟩

theorem starts_start (slots : Store Slot) (callers : List Frame)
    (s : Session) : P.Starts (P.start slots callers s) := ⟨rfl, rfl, rfl⟩

/-- **What the piece does with a value**: it stores the value and goes on
after the piece, or it goes on at the label for the value. -/
def Yields (ty : Ty) (v : Literal) (f : Frame) : Prop :=
  v.ty = ty ∧ match dest with
    | .store dst => f.rest = P.rest ∧ f.slots.get? dst = some v.encode
    | .branch ifTrue ifFalse => ∃ b, v = .bool b ∧
      P.routine.code.atLabel? (if b then ifTrue else ifFalse) = some f.rest

variable {P}

theorem not_inside_rest : ¬ P.Inside P.rest := by
  rintro ⟨part, hpart, -, hrest⟩
  have hlength := congrArg List.length hrest
  rw [List.length_append] at hlength
  exact hpart (List.length_eq_zero_iff.mp (by omega))

theorem not_inside_nil : ¬ P.Inside [] := by
  rintro ⟨part, hpart, -, hnil⟩
  exact hpart (List.append_eq_nil_iff.mp hnil.symm).1

/-- An instruction that is executed in the piece is one of it. -/
theorem mem_of_inside {i : Instr} {k : Code} (h : P.Inside (i :: k)) :
    i ∈ P.code := by
  obtain ⟨part, hpart, hsuffix, hcode⟩ := h
  cases part with
  | nil => exact absurd rfl hpart
  | cons j part =>
    cases hcode
    exact hsuffix.subset List.mem_cons_self

theorem not_inside_exit {l : Label} (hl : l ∈ dest.exits) {found : Code}
    (h : P.routine.code.atLabel? l = some found) : ¬ P.Inside found := by
  obtain ⟨-, rest, rfl⟩ := Code.atLabel?_eq_some h
  exact fun hin => (P.exits l hl).2 (Code.mem_labels.mpr (mem_of_inside hin))

theorem emits : e.Emits P.site dest P.before P.code P.after := by
  have h := Expr.emits P.site e dest P.before
  rw [P.emitted] at h
  exact h

/-- **In a piece, variables are left alone**, and no body ends there. -/
theorem sparesVariables {i : Instr} {k : Code} (h : P.Inside (i :: k)) :
    i.SparesVariables ∧ i ≠ .leave := by
  have hi := mem_of_inside h
  refine ⟨P.emits.sparesVariables P.spares i hi, ?_⟩
  rintro rfl
  exact P.emits.inner.leave hi

variable {ty : Ty} {v v' : Literal} {f : Frame}

/-- What is done with a value is done outside of the piece. -/
theorem Yields.not_inside (h : P.Yields ty v f) : ¬ P.Inside f.rest := by
  obtain ⟨-, h⟩ := h
  cases dest with
  | store dst =>
    rw [h.1]
    exact not_inside_rest
  | branch ifTrue ifFalse =>
    obtain ⟨b, -, hlabel⟩ := h
    exact not_inside_exit (by cases b <;> simp [Destination.exits]) hlabel

/-- **What is done with a value tells which value it is.** -/
theorem Yields.unique (h : P.Yields ty v f) (h' : P.Yields ty v' f) :
    v' = v := by
  obtain ⟨hty, h⟩ := h
  obtain ⟨hty', h'⟩ := h'
  cases dest with
  | store dst =>
    exact Literal.encode_inj (hty'.trans hty.symm)
      (Option.some.inj (h'.2.symm.trans h.2))
  | branch ifTrue ifFalse =>
    obtain ⟨b, rfl, hlabel⟩ := h
    obtain ⟨b', rfl, hlabel'⟩ := h'
    -- the code from a label on begins with the label
    obtain ⟨-, rest, hrest⟩ := Code.atLabel?_eq_some hlabel
    obtain ⟨-, rest', hrest'⟩ := Code.atLabel?_eq_some hlabel'
    have hsame : (if b' then ifTrue else ifFalse)
        = if b then ifTrue else ifFalse :=
      Instr.label.inj (List.cons.inj (hrest'.symm.trans hrest)).1
    have hne : ifTrue ≠ ifFalse := by
      simpa [Destination.exits] using P.differ
    cases b <;> cases b'
    · rfl
    · exact absurd hsame hne
    · exact absurd hsame.symm hne
    · rfl

end Piece

/-- **There are pieces for every expression**, from any table that is in order
and for any destination that a piece can have. -/
theorem exists_piece (e : Expr Judged) (dest : Destination)
    {t symbols : SymbolTable} {site : Site} (ht : t.Tidy)
    (hbody : t.IsBody site.scope) (hconstants : site.constants.Mean symbols)
    (hkeeps : ((e.emit site dest).run t).2.Keeps symbols)
    (hplain : ∀ l ∈ dest.exits ++ [site.exit], Ident.Plain l)
    (hdiffer : (dest.exits ++ [site.exit]).Nodup)
    (hspares : dest.SparesVariables) (name : Ident) :
    ∃ P : e.Piece dest symbols, P.routine.name = name := by
  let code := ((e.emit site dest).run t).1
  -- behind the piece there are the labels of the destination and the exit
  let rest := dest.exits.map Instr.label ++ [.label site.exit, .leave]
  have hrest : Code.labels rest = dest.exits ++ [site.exit] := by
    cases dest <;> rfl
  obtain ⟨hnodup, hmade⟩ := (emits site e dest t).takes.nodup hbody
  have hfresh : ∀ l ∈ dest.exits ++ [site.exit], l ∉ code.labels :=
    fun l hl hcode => (hmade l hcode).1.not_plain (hplain l hl)
  have hdistinct : (code ++ rest).labels.Nodup := by
    rw [Code.labels_append, hrest]
    exact hnodup.append hdiffer fun l hcode hl => hfresh l hl hcode
  have hdefined : ∀ l ∈ dest.exits, l ∈ (code ++ rest).labels := by
    intro l hl
    rw [Code.labels_append, hrest]
    exact List.mem_append_right _ (List.mem_append_left _ hl)
  have hexit : (code ++ rest).atLabel? site.exit
      = some [.label site.exit, .leave] := by
    rw [← List.append_assoc] at hdistinct ⊢
    exact Code.atLabel?_append hdistinct
  exact ⟨{
    site := site
    before := t
    after := ((e.emit site dest).run t).2
    code := code
    emitted := rfl
    window := ⟨ht, hkeeps⟩
    constants := hconstants
    routine := ⟨⟨name, [], .unit, site.scope⟩, code ++ rest⟩
    rest := rest
    stands := List.suffix_refl _
    distinct := hdistinct
    exit := hexit
    exits := fun l hl => ⟨hdefined l hl, hfresh l (List.mem_append_left _ hl)⟩
    differ := (List.nodup_append.mp hdiffer).1
    spares := hspares }, rfl⟩

/-! ## What is seen of a piece -/

namespace Piece

variable {e : Expr Judged} {dest : Destination} {a : Assembly}
  {P : e.Piece dest a.symbols} {sigs : Signatures} {Γ : Context} {env : Env}
  {ty : Ty} {m : Machine}

/-- **A piece acts as the tree of its expression says.** -/
theorem acts (hty : e.HasType sigs Γ ty) (hdest : dest.Suits ty)
    (hplain : ∀ b ∈ Γ, Ident.Plain b.1) (henv : env.IsTyped Γ)
    (hm : P.Starts m) (hready : m.frame.Ready P.routine env) :
    m.frame.Acts a sigs P.Inside (P.Yields ty)
      (e.act P.routine.name env) := by
  let S : Setting := {
    program := a
    routine := P.routine
    site := P.site
    room := True
    bound := 0
    distinct := P.distinct
    exit := P.exit
    constants := P.constants }
  have hat : S.AtPart P.Inside env P.code P.rest m.frame :=
    ⟨⟨hready, hm.rest, P.stands⟩, fun c hc hsuffix => ⟨c, hc, hsuffix, rfl⟩⟩
  have hmeets : S.Meets sigs env P.code dest P.before.counter
      P.after.counter ty (e.act P.routine.name env) :=
    Emits.meets henv hplain P.emits P.window hty hdest
  cases dest with
  | store dst =>
    exact (hmeets.acts hat).mono fun v f ⟨hv, hrest, hslot, _⟩ =>
      ⟨hv, hrest, hslot⟩
  | branch ifTrue ifFalse =>
    have htrue := (P.exits ifTrue (by simp [Destination.exits])).1
    have hfalse := (P.exits ifFalse (by simp [Destination.exits])).1
    refine (hmeets.acts htrue hfalse hat).mono ?_
    rintro v f ⟨b, rfl, hlabel, -⟩
    exact ⟨hdest.symm, b, rfl, hlabel⟩

/-- **What is seen of a piece is what the tree of its expression gives.** -/
theorem follows (P : e.Piece dest a.symbols) (hanswers : a.Answers sigs)
    (hty : e.HasType sigs Γ ty) (hdest : dest.Suits ty)
    (hplain : ∀ b ∈ Γ, Ident.Plain b.1) (henv : env.IsTyped Γ)
    (hm : P.Starts m)
    (hready : m.frame.Ready P.routine env) :
    m.Follows a (P.Region m.callers)
      (fun v m' => m'.callers = m.callers ∧ P.Yields ty v m'.frame)
      ((e.act P.routine.name env).Gives (a.answers sigs) m.session.shown) :=
  Frame.Acts.follows hanswers (fun _ _ h => h.not_inside)
    (fun _ _ _ h h' => h.unique h')
    (acts hty hdest hplain henv hm hready) rfl rfl

end Piece

/-! ## Agreement -/

namespace Piece

variable {e : Expr Judged} {a : Assembly} {m : Machine}
  {yes no : Label} {dst : Slot}

/-- **The run leaves the piece for a label**, and this is shown then. -/
def Arrives (C : e.Piece (.branch yes no) a.symbols) (m : Machine)
    (label : Label) (s : Session) : Prop :=
  ∃ m', m.Leaves a (C.Region m.callers) m' ∧ m'.callers = m.callers
    ∧ C.routine.code.atLabel? label = some m'.frame.rest
    ∧ m'.session.shown = s

/-- **The run comes to the end of the piece** with this value in its place,
and this is shown then. -/
def EndsWith (V : e.Piece (.store dst) a.symbols) (m : Machine)
    (value : Value) (s : Session) : Prop :=
  ∃ m', m.Leaves a (V.Region m.callers) m' ∧ m'.callers = m.callers
    ∧ m'.frame.rest = V.rest ∧ m'.frame.slots.get? dst = some value
    ∧ m'.session.shown = s

/-- **The two modes agree**: the piece `C`, which branches, from the state `m`
on and the piece `V`, which stores, from the state `m'` on. What is shown is
the rest of the input, the output and the calls. -/
structure Agree (C : e.Piece (.branch yes no) a.symbols)
    (V : e.Piece (.store dst) a.symbols) (m m' : Machine) : Prop where
  /-- The one comes to the first label where the other stores 1. -/
  isTrue : ∀ s, C.Arrives m yes s ↔ V.EndsWith m' (.int 1) s
  /-- It comes to the second label where the other stores 0. -/
  isFalse : ∀ s, C.Arrives m no s ↔ V.EndsWith m' (.int 0) s
  /-- The labels are the only way out of the one, -/
  arrives : ∀ m₁, m.Leaves a (C.Region m.callers) m₁ →
    C.Arrives m yes m₁.session.shown ∨ C.Arrives m no m₁.session.shown
  /-- and to store 1 or 0 is the only way out of the other. -/
  ends : ∀ m₁, m'.Leaves a (V.Region m'.callers) m₁ →
    V.EndsWith m' (.int 1) m₁.session.shown
      ∨ V.EndsWith m' (.int 0) m₁.session.shown
  /-- They stop alike: with the same error, after the same has been shown. -/
  stops : ∀ outcome s, m.Stops a (C.Region m.callers) outcome s
    ↔ m'.Stops a (V.Region m'.callers) outcome s
  /-- One goes on for ever if the other does. -/
  stays : m.Stays a (C.Region m.callers) ↔ m'.Stays a (V.Region m'.callers)
  /-- Whatever comes of them, they show the same on the way. -/
  shows : ∀ s, m.Shows a (C.Region m.callers) s
    ↔ m'.Shows a (V.Region m'.callers) s
  /-- The one leaves the variables alone at all times, -/
  keeps : ∀ m₁, m.Leads a (C.Region m.callers) m₁ →
    m₁.KeepsVariables m.callers m.frame
  /-- and so does the other. -/
  keeps' : ∀ m₁, m'.Leads a (V.Region m'.callers) m₁ →
    m₁.KeepsVariables m'.callers m'.frame

/-- To come to a label is to have the truth value for it. -/
theorem arrives_iff {C : e.Piece (.branch yes no) a.symbols} (b : Bool)
    (s : Session) : C.Arrives m (if b then yes else no) s
      ↔ m.Gives a (C.Region m.callers)
        (fun v m' => m'.callers = m.callers ∧ C.Yields .bool v m'.frame)
        (.leaves (.bool b) s) := by
  constructor
  · rintro ⟨m', ⟨hleads, hout⟩, hcallers, hlabel, hs⟩
    exact ⟨m', hleads, hout, ⟨hcallers, rfl, b, rfl, hlabel⟩, hs⟩
  · rintro ⟨m', hleads, hout, ⟨hcallers, -, b', hb, hlabel⟩, hs⟩
    cases hb
    exact ⟨m', ⟨hleads, hout⟩, hcallers, hlabel, hs⟩

/-- To end with an integer is to have the truth value for it. -/
theorem endsWith_iff {V : e.Piece (.store dst) a.symbols} (b : Bool)
    (s : Session) : V.EndsWith m (.int (if b then 1 else 0)) s
      ↔ m.Gives a (V.Region m.callers)
        (fun v m' => m'.callers = m.callers ∧ V.Yields .bool v m'.frame)
        (.leaves (.bool b) s) := by
  constructor
  · rintro ⟨m', ⟨hleads, hout⟩, hcallers, hrest, hslot, hs⟩
    exact ⟨m', hleads, hout, ⟨hcallers, rfl, hrest, hslot⟩, hs⟩
  · rintro ⟨m', hleads, hout, ⟨hcallers, -, hrest, hslot⟩, hs⟩
    exact ⟨m', ⟨hleads, hout⟩, hcallers, hrest, hslot, hs⟩

/-- **A run that leaves a piece for a truth value** does so with one of the
two. -/
theorem exists_gives {dest : Destination} {P : e.Piece dest a.symbols}
    {sights : Sight Literal → Prop}
    (h : m.Follows a (P.Region m.callers)
      (fun v m' => m'.callers = m.callers ∧ P.Yields .bool v m'.frame) sights)
    {m₁ : Machine} (hm₁ : m.Leaves a (P.Region m.callers) m₁) :
    ∃ b, m.Gives a (P.Region m.callers)
      (fun v m' => m'.callers = m.callers ∧ P.Yields .bool v m'.frame)
      (.leaves (.bool b) m₁.session.shown) := by
  obtain ⟨v, hcallers, hyields⟩ := h.leaves m₁ hm₁
  obtain ⟨b, rfl⟩ := Literal.eq_bool hyields.1
  exact ⟨b, m₁, hm₁.1, hm₁.2, ⟨hcallers, hyields⟩, rfl⟩

/-- **Pieces agree that follow one tree.** -/
theorem Agree.of_follows {C : e.Piece (.branch yes no) a.symbols}
    {V : e.Piece (.store dst) a.symbols} {m m' : Machine}
    {sights : Sight Literal → Prop}
    (h : m.Follows a (C.Region m.callers)
      (fun v m₁ => m₁.callers = m.callers ∧ C.Yields .bool v m₁.frame) sights)
    (h' : m'.Follows a (V.Region m'.callers)
      (fun v m₁ => m₁.callers = m'.callers ∧ V.Yields .bool v m₁.frame)
      sights) : C.Agree V m m' := by
  have hsights (o : Sight Literal) := (h.gives o).trans (h'.gives o).symm
  have hvalue (b : Bool) (s : Session) :
      C.Arrives m (if b then yes else no) s
        ↔ V.EndsWith m' (.int (if b then 1 else 0)) s :=
    (arrives_iff b s).trans ((hsights _).trans (endsWith_iff b s).symm)
  refine {
    isTrue := hvalue true
    isFalse := hvalue false
    arrives := fun m₁ hm₁ => ?_
    ends := fun m₁ hm₁ => ?_
    stops := fun outcome s => hsights (.stops outcome s)
    stays := h.stays_iff.trans h'.stays_iff.symm
    shows := fun s => hsights (.shows s)
    keeps := fun m₁ hm₁ =>
      hm₁.keepsVariables (fun _ _ => sparesVariables) not_inside_nil
    keeps' := fun m₁ hm₁ =>
      hm₁.keepsVariables (fun _ _ => sparesVariables) not_inside_nil }
  · obtain ⟨b, hb⟩ := exists_gives h hm₁
    have harrives := (arrives_iff b _).mpr hb
    cases b with
    | true => exact Or.inl harrives
    | false => exact Or.inr harrives
  · obtain ⟨b, hb⟩ := exists_gives h' hm₁
    have hends := (endsWith_iff b _).mpr hb
    cases b with
    | true => exact Or.inl hends
    | false => exact Or.inr hends

end Piece

end Expr

/-- **Code can be emitted in both modes** for any expression, after the code of
a program, in a body of its own. -/
theorem TypedProgram.Emits.exists_pieces {typed : TypedProgram}
    {a : Assembly} {p : Program Span} (h : typed.Emits a)
    (hcheck : typed.IsCheckOf p) (hplain : p.HasPlainNames)
    (e : Expr Judged) : ∃ symbols, a.symbols.Keeps symbols
      ∧ ∃ (C : e.Piece (.branch "yes" "no") symbols)
        (V : e.Piece (.store "%value") symbols),
        C.routine.name = V.routine.name := by
  obtain ⟨constants, himplements⟩ := h.implements hcheck hplain
  let t := (a.symbols.addScope "host").2
  let site : Site := ⟨.nested a.symbols.nested.length, "out", constants⟩
  let t₁ := ((e.emit site (.branch "yes" "no")).run t).2
  let t₂ := ((e.emit site (.store "%value")).run t₁).2
  have htidy := h.tidy hcheck hplain
  have ht : t.Tidy := ⟨htidy.found, htidy.ahead⟩
  have hbody : t.IsBody site.scope := by
    refine ⟨?_, ScopeId.noConfusion⟩
    show a.symbols.nested.length < (a.symbols.nested ++ [_]).length
    simp
  have g₁ : Grows site.scope t t₁ := (Expr.emits site e _ t).takes.grows
  have g₂ : Grows site.scope t₁ t₂ := (Expr.emits site e _ t₁).takes.grows
  have ht₁ := ht.grows g₁
  have hkeeps : a.symbols.Keeps t₂ :=
    show t.Keeps t₂ from (g₁.trans g₂).keeps ht
  have hmean := himplements.constants.keeps hkeeps
  have hlabels : (∀ l ∈ ["yes", "no", "out"], Ident.Plain l)
      ∧ ["yes", "no", "out"].Nodup := by decide
  have hexit : (∀ l ∈ ["out"], Ident.Plain l) ∧ ["out"].Nodup := by decide
  have hvalue : ¬ Ident.Plain "%value" := by decide
  obtain ⟨C, hC⟩ := e.exists_piece (.branch "yes" "no") ht hbody hmean
    (g₂.keeps ht₁) hlabels.1 hlabels.2 trivial "host"
  obtain ⟨V, hV⟩ := e.exists_piece (.store "%value") ht₁ (hbody.grows g₁)
    hmean (fun _ _ => id) hexit.1 hexit.2 hvalue "host"
  exact ⟨t₂, hkeeps, C, V, hC.trans hV.symm⟩

/-- **Code that stores a truth value and code that branches on it agree.** Let
the expression `e` stand in a checked program with plain names, where the
variables in `Γ` are in sight, and have a truth value. Let `C` be code that
branches on its value and `V` code that stores it in a place that is no
variable, and let both run with the code of the program. If they start with
the same variables, which have values of their types as far as they have any,
and after the same has been read, written and called, then they agree. -/
theorem Program.modes_agree {p : Program Span} {typed : TypedProgram}
    {a : Assembly} {symbols : SymbolTable} (hcheck : p.check = .ok typed)
    (hemit : typed.emit = .ok a) (hplain : p.HasPlainNames)
    (hkeeps : a.symbols.Keeps symbols) {d : Definition Judged}
    (hd : d ∈ typed.program.bodies) {Γ : Context} {e : Expr Judged}
    (he : (Γ, e) ∈ d.occurrences) (hty : e.ty = .bool) {yes no : Label}
    {dst : Slot} (C : e.Piece (.branch yes no) symbols)
    (V : e.Piece (.store dst) symbols)
    (hname : C.routine.name = V.routine.name) {m m' : Machine}
    (hm : C.Starts m) (hm' : V.Starts m') (hbinds : m.frame.Binds Γ)
    (hslots : ∀ x, Ident.Plain x →
      m'.frame.slots.get? x = m.frame.slots.get? x)
    (hshown : m'.session.shown = m.session.shown) :
    Expr.Piece.Agree (a := { a with symbols := symbols }) C V m m' := by
  have hsound := check_sound hcheck
  obtain ⟨constants, himplements⟩ :=
    (TypedProgram.emits_of_emit hemit).implements hsound hplain
  have hanswers := (himplements.keeps hkeeps).answers
  obtain ⟨hΓ, ty, htyped⟩ := hsound.wellTyped.occurrence hd he
  obtain rfl : ty = .bool := htyped.ty_eq.symm.trans hty
  have hnames := himplements.plain.occurrence hsound.wellTyped hd he
  -- both frames represent one environment
  obtain ⟨env, henv, hvalues⟩ := hbinds.exists_env hΓ
  have hready : m.frame.Ready C.routine env :=
    ⟨hm.routine, hm.arguments, fun x _ => hvalues x⟩
  have hready' : m'.frame.Ready V.routine env :=
    ⟨hm'.routine, hm'.arguments, fun x hx => (hslots x hx).trans (hvalues x)⟩
  have hC := Expr.Piece.follows (a := { a with symbols := symbols }) C
    hanswers htyped rfl hnames henv hm hready
  have hV := Expr.Piece.follows (a := { a with symbols := symbols }) V
    hanswers htyped trivial hnames henv hm' hready'
  rw [← hname, hshown] at hV
  exact .of_follows hC hV

/-- Code for a condition of the doubling program, in a body of its own where
`n` is 3. -/
theorem Program.modes_agree_doubling : ∃ typed a symbols Γ e,
    ∃ (C : Expr.Piece e (.branch "yes" "no") symbols)
      (V : Expr.Piece e (.store "%value") symbols) (m m' : Machine),
    doubling.check = .ok typed ∧ typed.emit = .ok a
      ∧ a.symbols.Keeps symbols
      ∧ (∃ d ∈ typed.program.bodies, (Γ, e) ∈ d.occurrences)
      ∧ e.ty = .bool ∧ C.Starts m ∧ V.Starts m'
      ∧ m.frame.slots.get? "n" = some (.int 3)
      ∧ Expr.Piece.Agree (a := { a with symbols := symbols }) C V m m' := by
  obtain ⟨a, hcompile⟩ := exists_compile_doubling
  obtain ⟨typed, hcheck, hemit⟩ := compile_eq_ok.mp hcompile
  have hplain : doubling.HasPlainNames := ⟨by decide, by decide, by decide⟩
  have hcondition : doubling.check.toOption.all (fun typed =>
      typed.program.bodies.any fun d => d.occurrences.any fun o =>
        o.1 = [("n", .int)] && o.2.ty = .bool) = true := by decide +kernel
  rw [hcheck] at hcondition
  obtain ⟨d, hd, ⟨Γ, e⟩, he, hΓ, hty⟩ : ∃ d ∈ typed.program.bodies,
      ∃ o ∈ d.occurrences, o.1 = [("n", .int)] ∧ o.2.ty = .bool := by
    simpa [Except.toOption] using hcondition
  obtain rfl : Γ = [("n", .int)] := hΓ
  obtain ⟨symbols, hkeeps, C, V, hname⟩ :=
    (TypedProgram.emits_of_emit hemit).exists_pieces (check_sound hcheck)
      hplain e
  let slots : Store Slot := Store.empty.set "n" (.int 3)
  have hm : C.Starts (C.start slots [] (.fresh [5])) := C.starts_start _ _ _
  have hm' : V.Starts (V.start slots [] (.fresh [5])) := V.starts_start _ _ _
  have hbinds : (C.start slots [] (.fresh [5])).frame.Binds
      [("n", .int)] := by
    intro name ty hmem value hvalue
    cases List.mem_singleton.mp hmem
    cases hvalue
    exact ⟨.int 3, rfl, rfl⟩
  exact ⟨typed, a, symbols, _, e, C, V, _, _, hcheck, hemit, hkeeps,
    ⟨d, hd, he⟩, hty, hm, hm', rfl, modes_agree hcheck hemit hplain hkeeps hd
      he hty C V hname hm hm' hbinds (fun _ _ => rfl) rfl⟩

end Primer
