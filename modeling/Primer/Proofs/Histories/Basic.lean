import Primer.Proofs.Tables

/-!
# Histories of a symbol table

A *history* is any sequence of operations on a table: scopes are opened, names
are declared, temporaries and labels are made up, texts are interned, in any
order and in any scopes. The *log* of a history has an entry for each
operation, with the answer that the table gave.

A log knows nothing of scopes as lists of symbols or of what a table finds
first. It has the plain facts, and they are read off it: which symbols were
declared in a scope (`Log.declarations`), which scope was opened for an owner
(`Log.openings`), which text got which name (`Log.internings`), and which
entries brought a name into the world (`Log.creations`). What a table does
over its whole life is a relation between the table and its log.

There are five things that an operation can do, and `SymbolTable.Does` says
what each is. A property that each of the five keeps holds of the log and the
table of every history (`SymbolTable.history_induction`).

Operations that only read a table are not part of its history. They leave no
trace in it.
-/

namespace Primer

open Text

/-! ## Operations -/

/-- What a name of a program is declared to be. -/
inductive Declaration where
  /-- A parameter. -/
  | formal (ty : Ty)
  /-- A variable that the program introduces. -/
  | introduced (ty : Ty)
  /-- A position whose name is fixed. -/
  | label
  deriving DecidableEq

/-- The symbol that is declared. -/
def Declaration.symbol (name : String) : Declaration → Symbol
  | formal ty => .formal name ty
  | introduced ty => .introduced name ty
  | label => .label name

@[simp] theorem Declaration.name_symbol (name : String) (what : Declaration) :
    (what.symbol name).name = name := by
  cases what <;> rfl

/-- **An operation on a symbol table.** -/
inductive Operation where
  /-- Opens a scope. -/
  | addScope (owner : String)
  /-- Declares a name in a scope. -/
  | declare (id : ScopeId) (name : String) (what : Declaration)
  /-- Makes up a temporary of a scope. -/
  | temporary (id : ScopeId) (ty : Ty)
  /-- Makes up a label of a scope, maybe with a hint. -/
  | label (id : ScopeId) (hint : Option String)
  /-- Asks for the name of a text. -/
  | intern (text : String)
  deriving DecidableEq

/-- **What a table answers** to an operation. -/
inductive Answer where
  /-- The scope that was opened. -/
  | scope (id : ScopeId)
  /-- The name is declared now. -/
  | done
  /-- The name is not declared, and nothing has changed. -/
  | refused (error : SymbolError)
  /-- The name that was asked for. -/
  | name (name : String)
  deriving DecidableEq

/-- **An operation and the answer to it.** -/
structure Entry where
  /-- The operation. -/
  operation : Operation
  /-- The answer. -/
  answer : Answer
  deriving DecidableEq

/-- **What happened to a table**, the first operation first. -/
abbrev Log := List Entry

/-- **Performs an operation**: the answer, and the table after it. -/
def Operation.perform (t : SymbolTable) : Operation → Answer × SymbolTable
  | addScope owner => (t.addScope owner).map .scope id
  | declare scope name what =>
    match t.declare scope (what.symbol name) with
    | .ok t' => (.done, t')
    | .error e => (.refused e, t)
  | temporary scope ty => (t.freshTemporary scope ty).map .name id
  | label scope hint => (t.freshLabel scope hint).map .name id
  | intern text => (t.intern text).map .name id

namespace SymbolTable

/-- **The table after some operations.** -/
def after (t : SymbolTable) : List Operation → SymbolTable
  | [] => t
  | op :: ops => (op.perform t).2.after ops

/-- **The log of some operations** that begin with a table. -/
def log (t : SymbolTable) : List Operation → Log
  | [] => []
  | op :: ops => ⟨op, (op.perform t).1⟩ :: (op.perform t).2.log ops

/-- **Whether operations are in order**, each with regard to the table on
which it is performed. -/
def Along (InOrder : SymbolTable → Operation → Prop) (t : SymbolTable) :
    List Operation → Prop
  | [] => True
  | op :: ops => InOrder t op ∧ (op.perform t).2.Along InOrder ops

instance decidableAlong {InOrder : SymbolTable → Operation → Prop}
    [∀ t op, Decidable (InOrder t op)] (t : SymbolTable) :
    (ops : List Operation) → Decidable (t.Along InOrder ops)
  | [] => inferInstanceAs (Decidable True)
  | op :: ops =>
    have : Decidable ((op.perform t).2.Along InOrder ops) :=
      decidableAlong (op.perform t).2 ops
    inferInstanceAs (Decidable (InOrder t op ∧ _))

theorem after_append (t : SymbolTable) (ops ops' : List Operation) :
    t.after (ops ++ ops') = (t.after ops).after ops' := by
  induction ops generalizing t with
  | nil => rfl
  | cons op ops ih => exact ih _

theorem log_append (t : SymbolTable) (ops ops' : List Operation) :
    t.log (ops ++ ops') = t.log ops ++ (t.after ops).log ops' := by
  induction ops generalizing t with
  | nil => rfl
  | cons op ops ih => exact congrArg (List.cons _) (ih _)

theorem along_true (t : SymbolTable) (ops : List Operation) :
    t.Along (fun _ _ => True) ops := by
  induction ops generalizing t with
  | nil => trivial
  | cons op ops ih => exact ⟨trivial, ih _⟩

/-! ## What an operation does -/

/-- **Making up a name**: with which stem, in which scope, for which symbol.
A text gets a name if it has none. -/
inductive Making (t : SymbolTable) :
    Operation → String → ScopeId → (String → Symbol) → Prop
  /-- A temporary. -/
  | temporary (id : ScopeId) (ty : Ty) :
    Making t (.temporary id ty) "%t" id (.temporary · ty)
  /-- A label. -/
  | label (id : ScopeId) (hint : Option String) :
    Making t (.label id hint) ("." ++ hint.getD "L") id .label
  /-- A text. -/
  | constant {text : String} (h : t.labelOf? text = none) :
    Making t (.intern text) ".str" .global (.constant · text)

/-- **The five things that an operation can do**, with the answer and the
table after it. -/
inductive Does (t : SymbolTable) : Operation → Answer → SymbolTable → Prop
  /-- It opens a scope. -/
  | opened (owner : String) :
    Does t (.addScope owner) (.scope (.nested t.nested.length))
      (t.addScope owner).2
  /-- It declares a name that is new to the scope. -/
  | declared {id : ScopeId} {name : String} (what : Declaration)
    (h : (t.scope id).find? name = none) :
    Does t (.declare id name what) .done
      (t.modify id (·.push (what.symbol name)))
  /-- It refuses a name that the scope has. -/
  | refused {id : ScopeId} {name : String} {symbol : Symbol}
    (what : Declaration) (h : (t.scope id).find? name = some symbol) :
    Does t (.declare id name what) (.refused (.alreadyDeclared name)) t
  /-- It makes up a name. -/
  | made {op : Operation} {stem : String} {id : ScopeId}
    {symbol : String → Symbol} (h : Making t op stem id symbol) :
    Does t op (.name (stem ++ Decimal.ofNat t.counter))
      (t.grown stem id symbol)
  /-- It recalls the name of a text. -/
  | recalled {text : String} {label : Label}
    (h : t.labelOf? text = some label) : Does t (.intern text) (.name label) t

variable {t t' : SymbolTable}

/-- A name that a scope does not have is declared in it. -/
theorem declare_of_find?_eq_none {id : ScopeId} {symbol : Symbol}
    (h : (t.scope id).find? symbol.name = none) :
    t.declare id symbol = .ok (t.modify id (·.push symbol)) := by
  have hpush : (t.modify id fun _ => (t.scope id).push symbol)
      = t.modify id (·.push symbol) := by
    cases id with
    | global => rfl
    | nested i =>
      refine congrArg (fun nested => { t with nested }) ?_
      refine List.ext_getElem (by simp) fun j hj _ => ?_
      rw [List.length_modify] at hj
      rw [List.getElem_modify, List.getElem_modify]
      split
      · next hij =>
        subst hij
        simp [scope, hj]
      · rfl
  rw [declare, Scope.declare_of_find?_eq_none h, ← hpush]
  rfl

theorem declare_of_find?_eq_some {id : ScopeId} {symbol symbol' : Symbol}
    (h : (t.scope id).find? symbol.name = some symbol') :
    t.declare id symbol = .error (.alreadyDeclared symbol.name) := by
  rw [declare, Scope.declare, h]
  rfl

/-- **An operation does one of the five things.** -/
theorem does_perform (t : SymbolTable) (op : Operation) :
    Does t op (op.perform t).1 (op.perform t).2 := by
  cases op with
  | addScope owner => exact .opened owner
  | temporary id ty => exact .made (.temporary id ty)
  | label id hint => exact .made (.label id hint)
  | declare id name what =>
    rw [Operation.perform]
    cases hfind : (t.scope id).find? name with
    | none =>
      rw [declare_of_find?_eq_none (by rw [what.name_symbol, hfind])]
      exact .declared what hfind
    | some symbol =>
      rw [declare_of_find?_eq_some (by rw [what.name_symbol, hfind]),
        what.name_symbol]
      exact .refused what hfind
  | intern text =>
    rw [Operation.perform]
    cases hlabel : t.labelOf? text with
    | none =>
      rw [intern_of_none hlabel]
      exact .made (.constant hlabel)
    | some label =>
      rw [intern_of_some hlabel]
      exact .recalled hlabel

/-- **What holds at the start and is kept by each of the five things, holds
after every history** whose operations are in order. -/
theorem history_induction {InOrder : SymbolTable → Operation → Prop}
    {Holds : Log → SymbolTable → Prop} (start : Holds [] .empty)
    (step : ∀ {log t op answer t'}, Holds log t → InOrder t op →
      Does t op answer t' → Holds (log ++ [⟨op, answer⟩]) t')
    {ops : List Operation} (h : empty.Along InOrder ops) :
    Holds (empty.log ops) (empty.after ops) := by
  -- the history so far is what has to be general, not the table
  have from_here : ∀ {ops : List Operation} {log : Log} {t : SymbolTable},
      Holds log t → t.Along InOrder ops →
      Holds (log ++ t.log ops) (t.after ops) := by
    intro ops
    induction ops with
    | nil =>
      intro log t hlog _
      rwa [SymbolTable.log, List.append_nil]
    | cons op ops ih =>
      intro log t hlog hops
      have hstep := step hlog hops.1 (t.does_perform op)
      have hrest := ih hstep hops.2
      rwa [List.append_assoc] at hrest
  exact from_here start h

/-! ## The counter -/

theorem Does.counter_le {op : Operation} {answer : Answer}
    (h : Does t op answer t') :
    t.counter ≤ t'.counter ∧ t'.counter ≤ t.counter + 1 := by
  cases h with
  | opened | refused | recalled => exact ⟨Nat.le_refl _, Nat.le_succ _⟩
  | declared => simp
  | made => simp

/-- **No history counts further than it is long**, so that a counter of 64
bits is enough for all but the longest. -/
theorem counter_after_le (ops : List Operation) :
    (empty.after ops).counter ≤ ops.length := by
  have general : ∀ t : SymbolTable,
      (t.after ops).counter ≤ t.counter + ops.length := by
    induction ops with
    | nil => exact fun t => Nat.le_refl _
    | cons op ops ih =>
      intro t
      have hstep := (t.does_perform op).counter_le.2
      have hrest := ih (op.perform t).2
      rw [after, List.length_cons]
      omega
  simpa [empty] using general empty

end SymbolTable

/-! ## What a log says -/

theorem filterMap_concat {α β : Type} (select : α → Option β) (as : List α)
    (a : α) : (as ++ [a]).filterMap select
      = as.filterMap select ++ (select a).toList := by
  rw [List.filterMap_append]
  cases h : select a <;> simp [h]

/-- The symbol that an entry declared in a scope. -/
def Entry.declaredIn? (id : ScopeId) : Entry → Option Symbol
  | ⟨.declare id' name what, .done⟩ =>
    if id' = id then some (what.symbol name) else none
  | _ => none

theorem Entry.declaredIn?_declare (id id' : ScopeId) (name : String)
    (what : Declaration) :
    Entry.declaredIn? id ⟨.declare id' name what, .done⟩
      = if id' = id then some (what.symbol name) else none := rfl

/-- The scope that an entry opened, and for whom. -/
def Entry.opened? : Entry → Option (String × ScopeId)
  | ⟨.addScope owner, .scope id⟩ => some (owner, id)
  | _ => none

/-- The text that an entry asked for, and its name. -/
def Entry.interned? : Entry → Option (Label × String)
  | ⟨.intern text, .name label⟩ => some (label, text)
  | _ => none

namespace Log

/-- **The symbols that were declared in a scope**, the first one first. -/
def declarations (log : Log) (id : ScopeId) : List Symbol :=
  log.filterMap (Entry.declaredIn? id)

/-- **The scopes that were opened**, each with its owner. -/
def openings (log : Log) : List (String × ScopeId) :=
  log.filterMap Entry.opened?

/-- **The texts that were asked for**, each with the name that was the
answer, as often as they were asked for. -/
def internings (log : Log) : List (Label × String) :=
  log.filterMap Entry.interned?

/-- **What a name was declared as**: in a scope, or else in the global one. -/
def meaning (log : Log) (id : ScopeId) (name : String) :
    Except SymbolError Symbol :=
  match (log.declarations id).find? (·.name == name)
      <|> (log.declarations .global).find? (·.name == name) with
  | some symbol => .ok symbol
  | none => .error (.notDeclared name)

/-- The texts that were asked for. -/
def texts (log : Log) : List String := log.internings.map Prod.snd

theorem declarations_concat (log : Log) (e : Entry) (id : ScopeId) :
    declarations (log ++ [e]) id
      = log.declarations id ++ (e.declaredIn? id).toList :=
  filterMap_concat _ log e

theorem openings_concat (log : Log) (e : Entry) :
    openings (log ++ [e]) = log.openings ++ e.opened?.toList :=
  filterMap_concat _ log e

theorem internings_concat (log : Log) (e : Entry) :
    internings (log ++ [e]) = log.internings ++ e.interned?.toList :=
  filterMap_concat _ log e

/-- **Whether an operation creates a name** after what is in the log. A text
that was asked for before has its name. -/
def Creates (log : Log) : Operation → Prop
  | .temporary _ _ | .label _ _ => True
  | .intern text => text ∉ log.texts
  | .addScope _ | .declare _ _ _ => False

instance (log : Log) : (op : Operation) → Decidable (log.Creates op)
  | .temporary _ _ | .label _ _ => inferInstanceAs (Decidable True)
  | .intern _ => inferInstanceAs (Decidable (_ ∉ _))
  | .addScope _ | .declare _ _ _ => inferInstanceAs (Decidable False)

/-- The entries that created a name, in what came after a log. -/
def creationsAfter (earlier : Log) : Log → Log
  | [] => []
  | e :: later =>
    if earlier.Creates e.operation then
      e :: creationsAfter (earlier ++ [e]) later
    else creationsAfter (earlier ++ [e]) later

/-- **The entries that created a name.** -/
def creations (log : Log) : Log := creationsAfter [] log

/-- The entry that comes last, if it created a name. -/
theorem creations_concat (log : Log) (e : Entry) :
    creations (log ++ [e]) = if log.Creates e.operation
      then log.creations ++ [e] else log.creations := by
  have general : ∀ earlier : Log, creationsAfter earlier (log ++ [e])
      = if Creates (earlier ++ log) e.operation
        then creationsAfter earlier log ++ [e]
        else creationsAfter earlier log := by
    induction log with
    | nil =>
      intro earlier
      rw [List.append_nil]
      rfl
    | cons e' log ih =>
      intro earlier
      rw [List.cons_append, creationsAfter, ih, creationsAfter,
        List.append_assoc, List.singleton_append]
      split <;> split <;> rfl
  exact general []

end Log

end Primer
