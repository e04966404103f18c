import Primer.Proofs.BlockScopes
import Primer.Proofs.Emission.Temporaries

/-!
# What code of expressions reads and writes

The code of an expression has a small footprint. It writes the place that the
value is to go to, if there is one, and temporaries that were taken for it
while it was emitted; it reads the variables of the expression and such
temporaries (`Expr.Emits.keepsTo`). What a scope gains in temporaries is a
matter of two tables (`SymbolTable.gained`), and gains add up
(`SymbolTable.gained_trans`), so the footprint of a piece is within that of
the whole.

No hypothesis on types is made, nor on names. If names are plain, they are
none of the temporaries, and nothing but the destination of the value can be a
variable that is written.
-/

namespace Primer

open SymbolTable

/-! ## Temporaries gained -/

theorem Scope.temporaries_push (s : Scope) (symbol : Symbol) :
    (s.push symbol).temporaries = s.temporaries
      ++ ([symbol].filter (·.kind == .temporary)).map Symbol.name := by
  rw [temporaries, symbols_push, List.filter_append, List.map_append,
    temporaries]

namespace SymbolTable

variable {id : ScopeId} {t t₁ t₂ t' : SymbolTable}

/-- **The temporaries that a scope has gained** from a table to a later one.
-/
def gained (id : ScopeId) (t t' : SymbolTable) : List Slot :=
  (t'.scope id).temporaries.drop (t.scope id).temporaries.length

/-- **A scope gains temporaries behind those that it has**, and their numbers
have been counted meanwhile. -/
theorem Grows.temporaries (h : Grows id t t') (hid : t.Has id) :
    (t'.scope id).temporaries = (t.scope id).temporaries ++ gained id t t'
      ∧ ∀ x ∈ gained id t t', Made t.counter t'.counter x := by
  suffices h : ∃ new, (t'.scope id).temporaries
      = (t.scope id).temporaries ++ new
      ∧ ∀ x ∈ new, Made t.counter t'.counter x by
    obtain ⟨new, hnew, hmade⟩ := h
    rw [gained, hnew, List.drop_left]
    exact ⟨rfl, hmade⟩
  induction h with
  | refl => exact ⟨[], (List.append_nil _).symm, nofun⟩
  | @step t' stem id' symbol h ha ih =>
    obtain ⟨new, hnew, hmade⟩ := ih
    have hwider : ∀ x ∈ new, Made t.counter (t'.counter + 1) x :=
      fun x hx => (hmade x hx).mono (Nat.le_refl _) (Nat.le_succ _)
    rw [counter_grown]
    cases ha with
    | temporary ty =>
      refine ⟨new ++ ["%t" ++ Text.Decimal.ofNat t'.counter], ?_, ?_⟩
      · rw [scope_grown_self (h.has hid), Scope.temporaries_push, hnew,
          List.append_assoc]
        rfl
      · refine List.forall_mem_append.mpr ⟨hwider, ?_⟩
        refine List.forall_mem_singleton.mpr ?_
        exact (Made.single stem_temporary _).mono h.counter_le (Nat.le_refl _)
    | label hstem =>
      refine ⟨new, ?_, hwider⟩
      rw [scope_grown_self (h.has hid), Scope.temporaries_push, hnew]
      exact List.append_nil _
    | constant text =>
      refine ⟨new, ?_, hwider⟩
      by_cases heq : ScopeId.global = id
      · subst heq
        rw [scope_grown_self (h.has hid), Scope.temporaries_push, hnew]
        exact List.append_nil _
      · rw [scope_grown_of_ne heq, hnew]

/-- **Gains add up.** -/
theorem gained_trans (h : Grows id t t₁) (h' : Grows id t₁ t')
    (hid : t.Has id) :
    gained id t t' = gained id t t₁ ++ gained id t₁ t' := by
  refine @List.append_cancel_left _ (t.scope id).temporaries _ _ ?_
  rw [← ((h.trans h').temporaries hid).1, ← List.append_assoc,
    ← (h.temporaries hid).1, ← (h'.temporaries (h.has hid)).1]

theorem gained_subset (h : Grows id t t₁) (h₁ : Grows id t₁ t₂)
    (h₂ : Grows id t₂ t') (hid : t.Has id) :
    gained id t₁ t₂ ⊆ gained id t t' := by
  rw [gained_trans h (h₁.trans h₂) hid, gained_trans h₁ h₂ (h.has hid)]
  exact fun x hx => List.mem_append_right _ (List.mem_append_left _ hx)

/-- A temporary that was taken was gained. -/
theorem mem_gained {ty : Ty} {temp : Slot}
    (htemp : t.freshTemporary id ty = (temp, t₁)) (h : Grows id t₁ t')
    (hid : t.Has id) : temp ∈ gained id t t' := by
  have hfirst := Grows.temporary htemp
  rw [gained_trans hfirst h hid]
  refine List.mem_append_left _ ?_
  rw [freshTemporary_eq] at htemp
  cases htemp
  rw [gained, scope_grown_self hid, Scope.temporaries_push, List.drop_left]
  exact List.mem_singleton_self _

end SymbolTable

/-! ## Footprints -/

namespace Code

/-- The places that code writes, as often as it does. -/
def writes (code : Code) : List Slot := code.filterMap Instr.dst?

@[simp] theorem writes_nil : writes [] = [] := rfl

@[simp] theorem writes_append (code rest : Code) :
    writes (code ++ rest) = writes code ++ writes rest :=
  List.filterMap_append

@[simp] theorem writes_cons (i : Instr) (code : Code) :
    writes (i :: code) = i.dst?.toList ++ writes code := by
  unfold writes
  cases h : i.dst? with
  | none => rw [List.filterMap_cons_none h]; rfl
  | some x => rw [List.filterMap_cons_some h]; rfl

@[simp] theorem writes_setArguments (index : UInt64) (temps : List Slot) :
    writes (setArguments index temps) = [] := by
  induction temps generalizing index with
  | nil => rfl
  | cons temp temps ih =>
    rw [setArguments, writes_cons, ih]
    rfl

/-- **Code keeps to places**: it writes only the ones and reads only the
others. -/
structure KeepsTo (written read : List Slot) (code : Code) : Prop where
  /-- It writes these places. -/
  writes : code.writes ⊆ written
  /-- It reads those places. -/
  reads : code.reads ⊆ read

namespace KeepsTo

variable {written written' read read' : List Slot} {code rest : Code}

theorem nil : KeepsTo written read [] :=
  ⟨List.nil_subset _, List.nil_subset _⟩

theorem mono (h : code.KeepsTo written read) (hwritten : written ⊆ written')
    (hread : read ⊆ read') : code.KeepsTo written' read' :=
  ⟨List.Subset.trans h.writes hwritten, List.Subset.trans h.reads hread⟩

/-- Two pieces. -/
theorem append (h : code.KeepsTo written read)
    (h' : rest.KeepsTo written read) : (code ++ rest).KeepsTo written read where
  writes := by
    rw [writes_append]
    exact List.append_subset.mpr ⟨h.writes, h'.writes⟩
  reads := by
    rw [reads_append]
    exact List.append_subset.mpr ⟨h.reads, h'.reads⟩

/-- **A piece of more code**: its temporaries are temporaries of the whole, and
so may be its places. -/
theorem within {places gained more : List Slot}
    (h : code.KeepsTo (places ++ gained) (read ++ gained))
    (hgained : gained ⊆ more) (hplaces : places ⊆ written ++ more)
    (hread : read ⊆ read') : code.KeepsTo (written ++ more) (read' ++ more) :=
  h.mono (List.append_subset.mpr
      ⟨hplaces, List.Subset.trans hgained (List.subset_append_right _ _)⟩)
    (List.append_subset.mpr
      ⟨List.Subset.trans hread (List.subset_append_left _ _),
        List.Subset.trans hgained (List.subset_append_right _ _)⟩)

theorem concat (h : code.KeepsTo written read)
    (hwrites : rest.writes ⊆ written) (hreads : rest.reads ⊆ read) :
    (code ++ rest).KeepsTo written read := h.append ⟨hwrites, hreads⟩

end KeepsTo

end Code

/-- The places that a destination has. -/
def Destination.places : Destination → List Slot
  | .store dst => [dst]
  | .branch _ _ => []

namespace Expr

variable {site : Site}

/-- **A value in a temporary**: the code that computes it, as a piece of more
code. -/
theorem keepsTo_temporary {id : ScopeId} {ty : Ty} {temp : Slot}
    {t t₁ t₂ t' : SymbolTable} {code : Code} {read read' : List Slot}
    (written : List Slot) (htemp : t.freshTemporary id ty = (temp, t₁))
    (hcode : code.KeepsTo ([temp] ++ gained id t₁ t₂)
      (read ++ gained id t₁ t₂))
    (h : Grows id t₁ t₂) (h' : Grows id t₂ t') (hid : t.Has id)
    (hread : read ⊆ read') :
    code.KeepsTo (written ++ gained id t t') (read' ++ gained id t t')
      ∧ temp ∈ gained id t t' := by
  have hmem := mem_gained htemp (h.trans h') hid
  refine ⟨hcode.within (gained_subset (.temporary htemp) h h' hid) ?_ hread,
    hmem⟩
  exact List.cons_subset.mpr
    ⟨List.mem_append_right _ hmem, List.nil_subset _⟩

/-- **Two operands in temporaries.** -/
theorem keepsTo_operands {id : ScopeId} {ty ty' : Ty} {left right : Slot}
    {t t₁ t₂ t₃ t₄ : SymbolTable} {leftCode rightCode : Code}
    {reads reads' : List Slot} (written : List Slot)
    (hleft : t.freshTemporary id ty = (left, t₁))
    (hleftCode : leftCode.KeepsTo ([left] ++ gained id t₁ t₂)
      (reads ++ gained id t₁ t₂))
    (hlhs : Grows id t₁ t₂)
    (hright : t₂.freshTemporary id ty' = (right, t₃))
    (hrightCode : rightCode.KeepsTo ([right] ++ gained id t₃ t₄)
      (reads' ++ gained id t₃ t₄))
    (hrhs : Grows id t₃ t₄) (hid : t.Has id) :
    (leftCode ++ rightCode).KeepsTo (written ++ gained id t t₄)
        (reads ++ reads' ++ gained id t t₄)
      ∧ left ∈ gained id t t₄ ∧ right ∈ gained id t t₄ := by
  have hfirst := (Grows.temporary hleft).trans hlhs
  obtain ⟨hl, hmem⟩ := keepsTo_temporary written hleft hleftCode
    hlhs ((Grows.temporary hright).trans hrhs) hid
    (List.subset_append_left reads reads')
  obtain ⟨hr, hmem'⟩ := keepsTo_temporary [] hright hrightCode
    hrhs (.refl _) (hfirst.has hid) (List.subset_append_right reads reads')
  have hgained := gained_subset hfirst ((Grows.temporary hright).trans hrhs)
    (.refl _) hid
  exact ⟨hl.append (hr.within hgained (List.nil_subset _)
    (List.Subset.refl _)), hmem, hgained hmem'⟩

open Code.KeepsTo

mutual

/-- **The code of an expression keeps to** its destination, the variables of
the expression and temporaries that were taken for it. -/
theorem Emits.keepsTo {e : Expr Judged} {dest : Destination}
    {t t' : SymbolTable} {code : Code} (h : e.Emits site dest t code t')
    (hid : t.Has site.scope) :
    code.KeepsTo (dest.places ++ gained site.scope t t')
      (e.reads ++ gained site.scope t t') := by
  match h with
  | .int | .unit | .boolStore | .boolBranch | .varStore | .varBranch
  | .str _ =>
    constructor <;>
      simp [Instr.dst?, Instr.reads, Destination.places, reads]
  | .arith hleft hlhs hright hrhs | .compare hleft hlhs hright hrhs =>
    -- the operands end in temporaries that were taken on the way
    have hid₁ := (Grows.temporary hleft).has hid
    have hid₃ := (Grows.temporary hright).has (hlhs.takes.grows.has hid₁)
    obtain ⟨hcode, hmem, hmem'⟩ := keepsTo_operands _ hleft
      (hlhs.keepsTo hid₁) hlhs.takes.grows hright (hrhs.keepsTo hid₃)
      hrhs.takes.grows hid
    refine hcode.concat ?_ ?_ <;>
      simp [Instr.dst?, Instr.reads, Destination.places, hmem, hmem']
  | .and hnext hlhs hrhs | .or hnext hlhs hrhs =>
    have hlabel := (Takes.label (by simp) hnext).grows
    have hid₁ := hlabel.has hid
    have hl := hlhs.takes.grows
    have hr := hrhs.takes.grows
    refine ((hlhs.keepsTo hid₁).within (gained_subset hlabel hl hr hid)
      (List.nil_subset _) (List.subset_append_left _ _)).append ?_ |>.append
        ((hrhs.keepsTo (hl.has hid₁)).within (gained_subset
          (hlabel.trans hl) hr (.refl _) hid) (List.nil_subset _)
          (List.subset_append_right _ _))
    constructor <;> simp [Instr.dst?, Instr.reads]
  | .not hoperand => exact hoperand.keepsTo hid
  | .input htemp hoperand | .strToInt _ htemp hoperand
  | .intToStr _ htemp hoperand | .branchStored _ htemp hoperand =>
    have hid₁ := (Grows.temporary htemp).has hid
    obtain ⟨hcode, hmem⟩ := keepsTo_temporary _ htemp (hoperand.keepsTo hid₁)
      hoperand.takes.grows (.refl _) hid (List.Subset.refl _)
    refine hcode.concat ?_ ?_ <;>
      simp [Instr.dst?, Instr.reads, Destination.places, hmem]
  | .boolToStr _ hchoice => exact hchoice.keepsTo hid rfl rfl rfl rfl
  | .keep _ hoperand => exact hoperand.keepsTo hid
  | .call hargs =>
    obtain ⟨hcode, htemps⟩ := hargs.keepsTo hid
    refine (hcode.mono (List.subset_append_right _ _)
      (List.Subset.refl _)).concat ?_ ?_ |>.concat ?_ ?_
    · rw [Code.writes_setArguments]
      exact List.nil_subset _
    · rw [reads_setArguments]
      exact List.Subset.trans htemps (List.subset_append_right _ _)
    all_goals simp [Instr.dst?, Instr.reads, Destination.places]
  | .storeBranched _ hflag hchoice =>
    have hid₁ := (Grows.temporary hflag).has hid
    obtain ⟨hcode, hmem⟩ := keepsTo_temporary _ hflag
      (hchoice.keepsTo hid₁ rfl rfl rfl rfl) (hchoice.takes rfl rfl).grows
      (.refl _) hid (List.Subset.refl _)
    refine hcode.concat ?_ ?_ <;>
      simp [Instr.dst?, Instr.reads, Destination.places, hmem]

/-- A choice between two instructions that write one place keeps to it. -/
theorem EmitsChoice.keepsTo {e : Expr Judged} {onTrue onFalse : Instr}
    {t t' : SymbolTable} {code : Code}
    (h : e.EmitsChoice site onTrue onFalse t code t')
    (hid : t.Has site.scope) {dst : Slot} (htrue : onTrue.dst? = some dst)
    (hfalse : onFalse.dst? = some dst) (hreads : onTrue.reads = [])
    (hreads' : onFalse.reads = []) :
    code.KeepsTo (dst :: gained site.scope t t')
      (e.reads ++ gained site.scope t t') := by
  match h with
  | .mk hyes hno hjoin he =>
    have hlabels := (Takes.labels (by simp) hyes hno hjoin).grows
    have hcode := he.keepsTo (hlabels.has hid)
    show Code.KeepsTo ([dst] ++ gained site.scope t t') _ _
    refine (hcode.within (gained_subset hlabels he.takes.grows (.refl _) hid)
      (List.nil_subset _) (List.Subset.refl _)).concat ?_ ?_
    · simp only [Code.writes_cons, Code.writes_nil, htrue, hfalse]
      simp [Instr.dst?]
    · simp only [Code.reads_cons, Code.reads_nil, hreads, hreads']
      simp [Instr.reads]

/-- The code of arguments keeps to temporaries, and the arguments are in such.
-/
theorem EmitsArgs.keepsTo {args : List (Expr Judged)} {temps : List Slot}
    {t t' : SymbolTable} {code : Code}
    (h : EmitsArgs site args temps t code t') (hid : t.Has site.scope) :
    code.KeepsTo (gained site.scope t t')
        (readsAll args ++ gained site.scope t t')
      ∧ temps ⊆ gained site.scope t t' := by
  match h with
  | .nil => exact ⟨.nil, List.nil_subset _⟩
  | .cons htemp harg hargs =>
    have hid₁ := (Grows.temporary htemp).has hid
    have hfirst := (Grows.temporary htemp).trans harg.takes.grows
    have hrest := hargs.takes.grows
    obtain ⟨hcode, hmem⟩ := keepsTo_temporary [] htemp (harg.keepsTo hid₁)
      harg.takes.grows hrest hid (List.subset_append_left _ _)
    obtain ⟨hcodes, htemps⟩ := hargs.keepsTo (hfirst.has hid)
    have hcodes : Code.KeepsTo ([] ++ _) _ _ := hcodes
    have hgained := gained_subset hfirst hrest (.refl _) hid
    refine ⟨hcode.append (hcodes.within hgained (List.nil_subset _)
      (List.subset_append_right _ _)), ?_⟩
    exact List.cons_subset.mpr ⟨hmem, List.Subset.trans htemps hgained⟩

end

end Expr

end Primer
