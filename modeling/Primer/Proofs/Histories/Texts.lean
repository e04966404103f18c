import Mathlib.Data.List.Induction
import Primer.Proofs.Histories.Basic

/-!
# Texts and their names over a history

A table gives a text one name, and keeps to it. That is not a matter of
course. The names of texts share the global scope with the names of routines
and of labels, a made-up name takes the place of an older symbol of the same
name, and the hint of a label may well be `str1`. What keeps a later name
from being that of an older text is that the stem `.str` does not end in a
digit, and that the later name ends in a greater number
(`append_ofNat_ne_of_lt`).

So no operation but `intern` changes what is known about texts
(`SymbolTable.Does.sameTexts`), and `intern` only adds to it. After any
history, what the table says about texts and names is what the log says
(`SymbolTable.Interned`): the names stand for the texts they were given for,
and the list of texts is the list of those that were asked for, in the order
in which each was asked for first.
-/

namespace Primer

open Text

/-! ## Lists without repetitions -/

theorem eraseDups_concat {α : Type} [BEq α] [LawfulBEq α] [DecidableEq α]
    (as : List α) (a : α) :
    (as ++ [a]).eraseDups
      = if a ∈ as then as.eraseDups else as.eraseDups ++ [a] := by
  rw [List.eraseDups_append]
  split
  · next hmem => simp [List.removeAll, hmem]
  · next hmem => simp [List.removeAll, hmem, List.eraseDups_cons]

/-- Nothing is repeated. -/
theorem nodup_eraseDups {α : Type} [DecidableEq α] (as : List α) :
    as.eraseDups.Nodup := by
  induction as using List.reverseRecOn with
  | nil => exact List.nodup_nil
  | append_singleton as a ih =>
    rw [eraseDups_concat]
    split
    · exact ih
    · next hmem =>
      refine List.nodup_append.mpr ⟨ih, by simp, fun b hb c hc hbc => ?_⟩
      rw [List.mem_singleton.mp hc] at hbc
      exact hmem (List.mem_eraseDups.mp (hbc ▸ hb))

/-! ## Which texts an operation asks for -/

/-- The text that an operation asks for. -/
def Operation.text? : Operation → Option String
  | intern text => some text
  | _ => none

namespace SymbolTable

/-- **The log has the texts that the operations ask for**, each with an
answer. -/
theorem texts_log (t : SymbolTable) (ops : List Operation) :
    (t.log ops).texts = ops.filterMap Operation.text? := by
  induction ops generalizing t with
  | nil => rfl
  | cons op ops ih =>
    have hrest := ih (op.perform t).2
    unfold Log.texts Log.internings at hrest ⊢
    rw [log]
    cases op with
    | intern text => exact congrArg (List.cons text) hrest
    | declare id name what =>
      rw [List.filterMap_cons_none rfl, List.filterMap_cons_none rfl, hrest]
    | addScope | temporary | label => exact hrest

/-! ## What a table knows about texts -/

/-- **Two tables know the same about texts.** -/
structure SameTexts (t t' : SymbolTable) : Prop where
  /-- The list of texts is the same. -/
  constants : t'.constants = t.constants
  /-- What a name stands for is the same. -/
  constant? : ∀ label, t'.constant? label = t.constant? label
  /-- What a text is called is the same. -/
  labelOf? : ∀ text, t'.labelOf? text = t.labelOf? text

variable {t t' : SymbolTable}

theorem sameTexts_of_global_eq (h : t'.global = t.global) :
    SameTexts t t' where
  constants := by rw [SymbolTable.constants, SymbolTable.constants, h]
  constant? label := by rw [SymbolTable.constant?, SymbolTable.constant?, h]
  labelOf? text := by rw [SymbolTable.labelOf?, SymbolTable.labelOf?, h]

theorem constants_push (t : SymbolTable) (symbol : Symbol) :
    (t.modify .global (·.push symbol)).constants = t.constants
      ++ (symbol.constantText?.map fun text => (symbol.name, text)).toList := by
  show (t.global.push symbol).symbols.filterMap _ = _
  rw [Scope.symbols_push, filterMap_concat]
  rfl

theorem constant?_push_self (t : SymbolTable) (symbol : Symbol) :
    (t.modify .global (·.push symbol)).constant? symbol.name
      = symbol.constantText? := by
  show ((t.global.push symbol).find? symbol.name).bind _ = _
  rw [Scope.find?_push_self]
  rfl

/-- **A symbol that is no text changes nothing about texts**, if its name
stands for none. -/
theorem sameTexts_push {symbol : Symbol}
    (hkind : ∀ text, symbol.kind ≠ .constant text) (id : ScopeId)
    (hname : t.constant? symbol.name = none) :
    SameTexts t (t.modify id (·.push symbol)) := by
  cases id with
  | nested i => exact sameTexts_of_global_eq rfl
  | global =>
    have hnone : symbol.constantText? = none := by
      unfold Symbol.constantText?
      split
      · next text htext => exact absurd htext (hkind text)
      · rfl
    constructor
    · rw [constants_push, hnone]
      exact List.append_nil _
    · intro label
      by_cases heq : symbol.name = label
      · rw [← heq, constant?_push_self, hnone, hname]
      · exact constant?_push_of_ne t heq
    · intro text
      rw [labelOf?_push, if_neg (hkind text)]

/-! ## One operation -/

/-- **The names of texts have numbers that were counted.** -/
def TextsNumbered (t : SymbolTable) : Prop :=
  ∀ label text, t.constant? label = some text →
    ∃ n < t.counter, label = ".str" ++ Decimal.ofNat n

/-- A name that is made up next stands for no text yet. -/
theorem TextsNumbered.next (h : t.TextsNumbered) (stem : String) :
    t.constant? (stem ++ Decimal.ofNat t.counter) = none := by
  cases hmeans : t.constant? (stem ++ Decimal.ofNat t.counter) with
  | none => rfl
  | some text =>
    obtain ⟨n, hn, heq⟩ := h _ text hmeans
    exact absurd heq.symm (append_ofNat_ne_of_lt (by decide) hn)

/-- A temporary or a label that is made up changes nothing about texts. -/
theorem TextsNumbered.sameTexts_grown (h : t.TextsNumbered) (stem : String)
    (id : ScopeId) {symbol : String → Symbol}
    (hname : ∀ name, (symbol name).name = name)
    (hkind : ∀ name text, (symbol name).kind ≠ .constant text) :
    SameTexts t (t.grown stem id symbol) := by
  have hpush := sameTexts_push (t := { t with counter := t.counter + 1 })
    (hkind (stem ++ Decimal.ofNat t.counter)) id
    ((congrArg t.constant? (hname _)).trans (h.next stem))
  -- what is counted is not about texts
  exact ⟨hpush.constants, hpush.constant?, hpush.labelOf?⟩

/-- **No operation but `intern` changes what is known about texts.** -/
theorem Does.sameTexts {op : Operation} {answer : Answer}
    (h : Does t op answer t') (hnumbered : t.TextsNumbered)
    (hop : op.text? = none) : SameTexts t t' := by
  cases h with
  | opened | refused => exact sameTexts_of_global_eq rfl
  | recalled => cases hop
  | @declared id name what hnew =>
    cases id with
    | nested i => exact sameTexts_of_global_eq rfl
    | global =>
      refine sameTexts_push (fun text => ?_) .global ?_
      · cases what <;> exact SymbolKind.noConfusion
      · rw [what.name_symbol, constant?]
        exact congrArg (Option.bind · _) hnew
  | made hmade =>
    cases hmade with
    | temporary | label =>
      exact hnumbered.sameTexts_grown _ _ (fun _ => rfl)
        fun _ _ => SymbolKind.noConfusion
    | constant => cases hop

/-- **A text that has no name gets the next one**, and the others keep
theirs. -/
theorem constant?_grown_constant (t : SymbolTable) (text : String)
    (label : Label) :
    (t.grown ".str" .global (.constant · text)).constant? label
      = if ".str" ++ Decimal.ofNat t.counter = label then some text
        else t.constant? label := by
  split
  · next heq =>
    rw [← heq]
    exact constant?_push_self _ (.constant _ text)
  · next hne => exact constant?_push_of_ne _ hne

theorem constants_grown_constant (t : SymbolTable) (text : String) :
    (t.grown ".str" .global (.constant · text)).constants
      = t.constants ++ [(".str" ++ Decimal.ofNat t.counter, text)] :=
  constants_push _ (.constant _ text)

/-! ## Histories -/

/-- **What a table says about texts is what its log says.** -/
structure Interned (log : Log) (t : SymbolTable) : Prop where
  /-- The names of texts have numbers that were counted. -/
  numbered : t.TextsNumbered
  /-- A text has a name if the name stands for it. -/
  named : ∀ label text,
    t.labelOf? text = some label ↔ t.constant? label = some text
  /-- A name stands for a text if it was an answer to it. -/
  meant : ∀ label text,
    t.constant? label = some text ↔ (label, text) ∈ log.internings
  /-- The texts and names are those of the log, each once. -/
  listed : t.constants = log.internings.eraseDups
  /-- The texts are those of the log, each once. -/
  texts : t.constants.map Prod.snd = log.texts.eraseDups

namespace Interned

variable {log : Log} {op : Operation} {answer : Answer}

theorem start : Interned [] empty :=
  ⟨nofun, fun _ _ => iff_of_false nofun nofun,
    fun _ _ => iff_of_false nofun nofun, rfl, rfl⟩

/-- A text is known if it was asked for. -/
theorem labelOf?_eq_none (h : Interned log t) {text : String} :
    t.labelOf? text = none ↔ text ∉ log.texts := by
  rw [← not_iff_not, not_not, ← ne_eq, Option.ne_none_iff_exists', Log.texts,
    List.mem_map]
  constructor
  · rintro ⟨label, hlabel⟩
    exact ⟨_, (h.meant _ _).mp ((h.named _ _).mp hlabel), rfl⟩
  · rintro ⟨⟨label, _⟩, hmem, rfl⟩
    exact ⟨label, (h.named _ _).mpr ((h.meant _ _).mpr hmem)⟩

/-- An entry that says nothing about texts, over a table that knows the
same. -/
theorem same (h : Interned log t) (hsame : SameTexts t t')
    (hcounter : t.counter ≤ t'.counter) {e : Entry}
    (he : e.interned? = none) : Interned (log ++ [e]) t' := by
  have hlog : Log.internings (log ++ [e]) = log.internings := by
    rw [Log.internings_concat, he]
    exact List.append_nil _
  constructor
  · intro label text hmeans
    rw [hsame.constant?] at hmeans
    have ⟨n, hn, heq⟩ := h.numbered label text hmeans
    exact ⟨n, Nat.lt_of_lt_of_le hn hcounter, heq⟩
  · intro label text
    rw [hsame.labelOf?, hsame.constant?, h.named]
  · intro label text
    rw [hsame.constant?, h.meant, hlog]
  · rw [hsame.constants, h.listed, hlog]
  · rw [hsame.constants, h.texts, Log.texts, Log.texts, hlog]

/-- A text that is asked for again. -/
theorem again (h : Interned log t) {text : String} {label : Label}
    (hlabel : t.labelOf? text = some label) :
    Interned (log ++ [⟨.intern text, .name label⟩]) t := by
  have hmem := (h.meant label text).mp ((h.named label text).mp hlabel)
  have hlog : Log.internings (log ++ [⟨.intern text, .name label⟩])
      = log.internings ++ [(label, text)] := Log.internings_concat _ _
  refine ⟨h.numbered, h.named, fun label' text' => ?_, ?_, ?_⟩
  · rw [h.meant, hlog, List.mem_append, List.mem_singleton]
    exact ⟨.inl, fun hor => hor.elim (fun h => h) fun heq => heq ▸ hmem⟩
  · rw [hlog, eraseDups_concat, if_pos hmem, h.listed]
  · rw [Log.texts, hlog, List.map_append]
    refine h.texts.trans (Eq.symm ?_)
    exact (eraseDups_concat _ _).trans (if_pos (List.mem_map_of_mem hmem))

/-- A text that is asked for the first time. -/
theorem first (h : Interned log t) {text : String}
    (hlabel : t.labelOf? text = none) :
    Interned (log ++ [⟨.intern text,
      .name (".str" ++ Decimal.ofNat t.counter)⟩])
      (t.grown ".str" .global (.constant · text)) := by
  have hnew := h.labelOf?_eq_none.mp hlabel
  have hnext := h.numbered.next ".str"
  have hlog : Log.internings (log ++ [⟨.intern text,
      .name (".str" ++ Decimal.ofNat t.counter)⟩])
      = log.internings ++ [(".str" ++ Decimal.ofNat t.counter, text)] :=
    Log.internings_concat _ _
  constructor
  · intro label text' hmeans
    rw [constant?_grown_constant] at hmeans
    rw [counter_grown]
    split at hmeans
    · next heq => exact ⟨_, Nat.lt_succ_self _, heq.symm⟩
    · have ⟨n, hn, heq⟩ := h.numbered label text' hmeans
      exact ⟨n, Nat.lt_succ_of_lt hn, heq⟩
  · intro label text'
    rw [labelOf?_grown_constant, constant?_grown_constant]
    -- the text had no name, and the name stood for no text
    have htext := h.named label text
    have hname := h.named (".str" ++ Decimal.ofNat t.counter) text'
    rw [hlabel] at htext
    rw [hnext] at hname
    split <;> split
    · simp_all
    · simp_all
    · simp_all
    · exact h.named label text'
  · intro label text'
    rw [constant?_grown_constant, hlog, List.mem_append, List.mem_singleton,
      ← h.meant]
    split
    · next heq =>
      rw [← heq, hnext]
      simp [eq_comm]
    · next hne =>
      simp [Ne.symm hne]
  · rw [constants_grown_constant, h.listed, hlog, eraseDups_concat, if_neg]
    exact fun hmem => hnew (List.mem_map_of_mem hmem)
  · rw [constants_grown_constant, List.map_append, h.texts, Log.texts,
      Log.texts, hlog, List.map_append]
    exact ((eraseDups_concat _ _).trans (if_neg hnew)).symm

/-- **Each operation keeps it so.** -/
theorem step (h : Interned log t) (hdoes : Does t op answer t') :
    Interned (log ++ [⟨op, answer⟩]) t' := by
  cases hop : op.text? with
  | none =>
    have hentry : Entry.interned? ⟨op, answer⟩ = none := by
      cases op with
      | intern => cases hop
      | addScope | declare | temporary | label => rfl
    exact h.same (hdoes.sameTexts h.numbered hop) hdoes.counter_le.1 hentry
  | some text =>
    obtain rfl : op = .intern text := by
      cases op <;> simp_all [Operation.text?]
    cases hdoes with
    | recalled hlabel => exact h.again hlabel
    | made hmade =>
      cases hmade with
      | constant hlabel => exact h.first hlabel

end Interned

/-- **After any history, a table says about texts what its log says.** -/
theorem interned (ops : List Operation) :
    Interned (empty.log ops) (empty.after ops) :=
  history_induction .start (fun h _ hdoes => h.step hdoes)
    (along_true empty ops)

/-- **Texts and their names correspond to each other, once and for all.** After
any history, two answers are the same name if and only if the texts are the
same; a name that was an answer stands for its text, then and after all that
may follow, and no other name stands for a text; the texts are listed in the
order in which they were asked for first, each once and with its name; and no
operation changes any of this unless it asks for a text. -/
theorem interning_stable (ops : List Operation) :
    (∀ label text label' text',
      (label, text) ∈ (empty.log ops).internings →
      (label', text') ∈ (empty.log ops).internings →
      (label = label' ↔ text = text'))
    ∧ (∀ label text, (label, text) ∈ (empty.log ops).internings →
      ∀ later, ((empty.after ops).after later).constant? label = some text)
    ∧ (∀ label text, (empty.after ops).constant? label = some text →
      (label, text) ∈ (empty.log ops).internings)
    ∧ (empty.after ops).constants = (empty.log ops).internings.eraseDups
    ∧ (empty.after ops).constants.map Prod.snd
      = (ops.filterMap Operation.text?).eraseDups
    ∧ ((empty.after ops).constants.map Prod.snd).Nodup
    ∧ ∀ op : Operation, op.text? = none →
      SameTexts (empty.after ops) (op.perform (empty.after ops)).2 := by
  have h := interned ops
  have htexts := h.texts
  refine ⟨fun label text label' text' hmem hmem' => ⟨?_, ?_⟩,
    fun label text hmem later => ?_, fun label text => (h.meant label text).mp,
    h.listed, ?_, ?_, fun op => (does_perform _ op).sameTexts h.numbered⟩
  · rintro rfl
    have hmeans := (h.meant label text).mpr hmem
    rw [(h.meant label text').mpr hmem'] at hmeans
    exact (Option.some.inj hmeans).symm
  · rintro rfl
    have hnamed := (h.named label text).mpr ((h.meant label text).mpr hmem)
    rw [(h.named label' text).mpr ((h.meant label' text).mpr hmem')] at hnamed
    exact (Option.some.inj hnamed).symm
  · -- the answer is in the log of the longer history too
    rw [← after_append]
    refine ((interned (ops ++ later)).meant label text).mpr ?_
    rw [log_append, Log.internings, List.filterMap_append]
    exact List.mem_append_left _ hmem
  · rw [htexts, texts_log]
  · rw [htexts]
    exact nodup_eraseDups _

/-- Two texts, with a label in between that is made up to look like the name
of one, and a declaration that asks for the name of the other. -/
def lookalikes : List Operation :=
  [.intern "one", .label .global (some "str"), .intern "two",
    .declare .global ".str0" .label, .intern "one"]

/-- The two texts have different names and keep them, whatever follows, and a
label with the hint `str2` does not change that. -/
theorem interning_stable_lookalikes :
    (".str0", "one") ∈ (empty.log lookalikes).internings
    ∧ (".str2", "two") ∈ (empty.log lookalikes).internings
    ∧ (".str0" = ".str2" ↔ "one" = "two")
    ∧ (∀ later, ((empty.after lookalikes).after later).constant? ".str2"
      = some "two")
    ∧ SameTexts (empty.after lookalikes)
      ((Operation.label .global (some "str2")).perform
        (empty.after lookalikes)).2 := by
  obtain ⟨hinj, hlater, -, -, -, -, hsame⟩ := interning_stable lookalikes
  have hone : (".str0", "one") ∈ (empty.log lookalikes).internings := by
    decide
  have htwo : (".str2", "two") ∈ (empty.log lookalikes).internings := by
    decide
  exact ⟨hone, htwo, hinj _ _ _ _ hone htwo, hlater _ _ htwo, hsame _ rfl⟩

end SymbolTable

end Primer
