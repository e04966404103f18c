import Mathlib.Data.List.Nodup
import Primer.Proofs.Tables
import Primer.Proofs.Text.Shown

/-!
# The drawing of a table

A table is drawn by a walk that knows nothing of its shape. It starts at the
global scope, and below a scope it goes to all the scopes that have it as
their parent and then to the scope's symbols (`SymbolTable.children`,
`SymbolTable.draw`). That it ends is not in the way it goes, so it is given a
depth, below which it gives up.

The shape of tables is what makes it end. The parent of every other scope is
the global scope, so nothing is more than two levels below that, and from
depth three on the walk gives the same lines: one for each scope and each
symbol, and together the outline (`SymbolTable.isDrawn`).
-/

namespace Primer

open Text

/-! ## Outlines in another quoting -/

/-- A symbol as text, where texts are quoted in some way. -/
def Symbol.textIn (quoted : String → String) (s : Symbol) : String :=
  match s.kind, s.ty? with
  | .constant text, _ => s.name ++ " = " ++ quoted text
  | .label, _ => s.name ++ " (label)"
  | kind, some ty => s.name ++ ": " ++ ty.name ++ " (" ++ kind.name ++ ")"
  | _, none => s.name

namespace SymbolTable

variable (quoted : String → String) (t : SymbolTable)

/-- The symbols of a scope below its owner. -/
def leavesIn (s : Scope) : List Outline :=
  s.symbols.map fun symbol => .node (symbol.textIn quoted) []

/-- The outline of a scope: its owner over its symbols. -/
def branchIn (s : Scope) : Outline := .node s.owner (leavesIn quoted s)

/-- **The outline of a table**, where texts are quoted in some way. -/
def outlineIn : Outline :=
  .node t.global.owner
    (t.nested.map (branchIn quoted) ++ leavesIn quoted t.global)

theorem outlineIn_quote : t.outlineIn quote = t.outline := rfl

/-! ## The walk -/

/-- **What a line of a drawing shows.** -/
inductive Item where
  /-- A scope. -/
  | scope (id : ScopeId)
  /-- The symbol of a scope that has this index, counted from the oldest. -/
  | symbol (id : ScopeId) (index : Nat)
  deriving DecidableEq

/-- Whether a table has what an item stands for. -/
def HasItem : Item → Prop
  | .scope id => t.Has id
  | .symbol id i => t.Has id ∧ i < (t.scope id).symbols.length

/-- The ids of the scopes, in the order in which they were made. -/
def ids : List ScopeId := .global :: (List.range t.nested.length).map .nested

/-- The symbols of a scope, the oldest first. -/
def symbolItems (id : ScopeId) : List Item :=
  (List.range (t.scope id).symbols.length).map (.symbol id)

/-- **What is below an item**: below a scope, the scopes whose parent it is,
and then its symbols. -/
def children : Item → List Item
  | .scope id =>
    (t.ids.filter (·.parent? == some id)).map .scope ++ t.symbolItems id
  | .symbol _ _ => []

/-- The text that stands for an item. -/
def caption : Item → String
  | .scope id => (t.scope id).owner
  | .symbol id i =>
    ((t.scope id).symbols[i]?.map (Symbol.textIn quoted)).getD ""

/-- Draws items one after the other, all but the last after a fork that goes
on. -/
def drawAll (draw : String → String → Item → Option (List (Item × String)))
    (lead : String) : List Item → Option (List (Item × String))
  | [] => some []
  | item :: others => do
    let last := others.isEmpty
    let lines ← draw (lead ++ Outline.fork last) (lead ++ Outline.rail last)
      item
    let rest ← drawAll draw lead others
    return lines ++ rest

/-- **Draws an item and what is below it**: each line with the item that it
shows. The first line begins with `start` and the others with `lead`. There is
no drawing if there is something at the depth that is given, or below. -/
def draw : Nat → String → String → Item → Option (List (Item × String))
  | 0, _, _, _ => none
  | depth + 1, start, lead, item => do
    let below ← drawAll (draw depth) lead (t.children item)
    return (item, start ++ t.caption quoted item) :: below

/-- **How a drawing should be**: with a line for each of the items, under its
caption, and altogether these lines. -/
structure Draws (drawn : List (Item × String)) (items : List Item)
    (lines : List String) : Prop where
  /-- The items. -/
  items : drawn.map Prod.fst = items
  /-- The lines. -/
  lines : drawn.map Prod.snd = lines
  /-- The captions. -/
  captions : ∀ p ∈ drawn, ∃ start, p.2 = start ++ t.caption quoted p.1

/-- Whether an item is drawn at a depth, with these items and as this outline.
-/
def IsDrawnAs (depth : Nat) (item : Item) (items : List Item) (text : String)
    (below : List Outline) : Prop :=
  ∀ start lead, ∃ drawn, t.draw quoted depth start lead item = some drawn
    ∧ t.Draws quoted drawn items
      ((start ++ text) :: Outline.forestLines lead below)

variable {quoted t}

/-- **Items are drawn one after the other** if each of them is drawn. -/
theorem exists_drawAll {depth : Nat} {cs : List Item}
    {items : Item → List Item} {below : Item → List Outline}
    (h : ∀ c ∈ cs,
      t.IsDrawnAs quoted depth c (items c) (t.caption quoted c) (below c))
    (lead : String) :
    ∃ drawn, drawAll (t.draw quoted depth) lead cs = some drawn
      ∧ t.Draws quoted drawn (cs.flatMap items) (Outline.forestLines lead
        (cs.map fun c => .node (t.caption quoted c) (below c))) := by
  induction cs with
  | nil => exact ⟨[], rfl, rfl, rfl, nofun⟩
  | cons c others ih =>
    obtain ⟨hc, hothers⟩ := List.forall_mem_cons.mp h
    let last := others.isEmpty
    obtain ⟨first, hfirst, hdraws⟩ :=
      hc (lead ++ Outline.fork last) (lead ++ Outline.rail last)
    obtain ⟨rest, hrest, hdraws'⟩ := ih hothers
    refine ⟨first ++ rest, ?_, ?_, ?_, ?_⟩
    · rw [drawAll, hfirst, hrest]
      rfl
    · rw [List.map_append, hdraws.items, hdraws'.items, List.flatMap_cons]
    · rw [List.map_append, hdraws.lines, hdraws'.lines, List.map_cons,
        Outline.forestLines, Outline.branchLines, List.isEmpty_map]
    · exact List.forall_mem_append.mpr ⟨hdraws.captions, hdraws'.captions⟩

/-- **An item is drawn one level deeper** than what is below it. -/
theorem isDrawnAs_succ {depth : Nat} {item : Item} {items : Item → List Item}
    {below : Item → List Outline}
    (h : ∀ c ∈ t.children item,
      t.IsDrawnAs quoted depth c (items c) (t.caption quoted c) (below c)) :
    t.IsDrawnAs quoted (depth + 1) item
      (item :: (t.children item).flatMap items) (t.caption quoted item)
      ((t.children item).map fun c =>
        .node (t.caption quoted c) (below c)) := by
  intro start lead
  obtain ⟨drawn, hdrawn, hdraws⟩ := exists_drawAll h lead
  refine ⟨(item, start ++ t.caption quoted item) :: drawn, ?_, ?_, ?_, ?_⟩
  · rw [draw, hdrawn]
    rfl
  · rw [List.map_cons, hdraws.items]
  · rw [List.map_cons, hdraws.lines]
  · exact List.forall_mem_cons.mpr ⟨⟨start, rfl⟩, hdraws.captions⟩

/-! ## What is below what -/

/-- Below the global scope there are all nested scopes, and its symbols. -/
theorem children_global : t.children (.scope .global)
    = (List.range t.nested.length).map (fun i => .scope (.nested i))
      ++ t.symbolItems .global := by
  have hids : t.ids.filter (·.parent? == some .global)
      = (List.range t.nested.length).map .nested :=
    (List.filter_cons_of_neg (by decide)).trans
      (List.filter_eq_self.mpr fun id hid => by
        obtain ⟨i, -, rfl⟩ := List.mem_map.mp hid
        rfl)
  rw [children, hids, List.map_map]
  rfl

/-- Below a nested scope there are its symbols only. -/
theorem children_nested (i : Nat) :
    t.children (.scope (.nested i)) = t.symbolItems (.nested i) := by
  have hids : t.ids.filter (·.parent? == some (.nested i)) = [] :=
    List.filter_eq_nil_iff.mpr fun id _ => by
      cases id <;> simp [ScopeId.parent?]
  rw [children, hids]
  rfl

theorem flatMap_symbolItems (id : ScopeId) :
    (t.symbolItems id).flatMap (fun c => c :: t.children c)
      = t.symbolItems id := by
  rw [symbolItems, List.flatMap_map]
  exact List.map_eq_flatMap.symm

theorem map_symbolItems (id : ScopeId) (below : Item → List Outline)
    (h : ∀ i, below (.symbol id i) = []) :
    (t.symbolItems id).map
        (fun c => Outline.node (t.caption quoted c) (below c))
      = leavesIn quoted (t.scope id) := by
  rw [symbolItems, leavesIn, List.map_map]
  refine List.ext_getElem (by simp) fun i hi hi' => ?_
  rw [List.length_map] at hi'
  simp [caption, h, hi']

/-! ## What is drawn -/

theorem isDrawnAs_leaf {item : Item} (h : t.children item = [])
    (depth : Nat) :
    t.IsDrawnAs quoted (depth + 1) item [item] (t.caption quoted item) [] := by
  have hsucc := @isDrawnAs_succ quoted t depth item (fun _ => [])
    (fun _ => []) (by rw [h]; nofun)
  rwa [h] at hsucc

theorem isDrawnAs_branch {item : Item}
    (h : ∀ c ∈ t.children item, t.children c = []) (depth : Nat) :
    t.IsDrawnAs quoted (depth + 2) item (item :: t.children item)
      (t.caption quoted item)
      ((t.children item).map fun c => .node (t.caption quoted c) []) := by
  have hsucc := isDrawnAs_succ fun c hc =>
    @isDrawnAs_leaf quoted t c (h c hc) depth
  rwa [List.flatMap_singleton'] at hsucc

/-- **Nothing is below what is below a child of the global scope.** -/
theorem children_of_mem_children {c c' : Item}
    (hc : c ∈ t.children (.scope .global)) (hc' : c' ∈ t.children c) :
    t.children c' = [] := by
  rw [children_global, List.mem_append] at hc
  obtain hc | hc := hc
  · obtain ⟨i, -, rfl⟩ := List.mem_map.mp hc
    rw [children_nested] at hc'
    obtain ⟨j, -, rfl⟩ := List.mem_map.mp hc'
    rfl
  · obtain ⟨i, -, rfl⟩ := List.mem_map.mp hc
    cases hc'

/-- The nodes below the root are those of the outline. -/
theorem map_children_global :
    (t.children (.scope .global)).map (fun c =>
      Outline.node (t.caption quoted c)
        ((t.children c).map fun c' => .node (t.caption quoted c') []))
      = t.nested.map (branchIn quoted) ++ leavesIn quoted t.global := by
  have hbranch : ∀ i, Outline.node (t.caption quoted (.scope (.nested i)))
      ((t.children (.scope (.nested i))).map fun c' =>
        .node (t.caption quoted c') [])
      = branchIn quoted (t.scope (.nested i)) := by
    intro i
    rw [children_nested, map_symbolItems _ _ fun _ => rfl]
    rfl
  have hbranches : (List.range t.nested.length).map
      (fun i => branchIn quoted (t.scope (.nested i)))
        = t.nested.map (branchIn quoted) :=
    List.ext_getElem (by simp) fun i hi _ => by
      rw [List.length_map, List.length_range] at hi
      simp [scope, hi]
  rw [children_global, List.map_append, List.map_map,
    map_symbolItems _ _ fun _ => rfl, ← hbranches]
  exact congrArg (· ++ _) (List.map_congr_left fun i _ => hbranch i)

variable (t) in
/-- A scope and its symbols. -/
def scopeItems (id : ScopeId) : List Item := .scope id :: t.symbolItems id

variable (t) in
/-- **The items of a table**, in the order in which they are drawn. -/
def items : List Item :=
  .scope .global ::
    ((List.range t.nested.length).flatMap (fun i => t.scopeItems (.nested i))
      ++ t.symbolItems .global)

variable (quoted t) in
/-- **A table is drawn as its outline**, from depth three on. -/
theorem exists_draw (depth : Nat) :
    ∃ drawn, t.draw quoted (depth + 3) "" "" (.scope .global) = some drawn
      ∧ t.Draws quoted drawn t.items (t.outlineIn quoted).lines := by
  obtain ⟨drawn, hdrawn, hdraws⟩ := isDrawnAs_succ (fun c hc =>
    @isDrawnAs_branch quoted t c (fun _ => children_of_mem_children hc) depth)
    "" ""
  have hitems : .scope .global ::
      (t.children (.scope .global)).flatMap (fun c => c :: t.children c)
        = t.items := by
    rw [children_global, List.flatMap_append, List.flatMap_map,
      flatMap_symbolItems]
    simp only [children_nested]
    rfl
  rw [hitems, map_children_global] at hdraws
  exact ⟨drawn, hdrawn, hdraws⟩

/-! ## Everything once -/

theorem mem_ids {id : ScopeId} : id ∈ t.ids ↔ t.Has id := by
  cases id with
  | global => exact iff_of_true (List.mem_cons_self ..) trivial
  | nested i => simp [ids, Has]

theorem nodup_ids : t.ids.Nodup := by
  refine List.nodup_cons.mpr ⟨fun h => ?_, ?_⟩
  · obtain ⟨i, -, hi⟩ := List.mem_map.mp h
    cases hi
  · exact List.nodup_range.map fun _ _ => ScopeId.nested.inj

theorem mem_scopeItems {id : ScopeId} {item : Item} :
    item ∈ t.scopeItems id ↔ item = .scope id
      ∨ ∃ i < (t.scope id).symbols.length, .symbol id i = item := by
  rw [scopeItems, List.mem_cons, symbolItems, List.mem_map]
  exact or_congr_right (exists_congr fun i =>
    and_congr_left fun _ => List.mem_range)

theorem nodup_scopeItems (id : ScopeId) : (t.scopeItems id).Nodup := by
  refine List.nodup_cons.mpr ⟨fun h => ?_, ?_⟩
  · obtain ⟨i, -, hi⟩ := List.mem_map.mp h
    cases hi
  · exact List.nodup_range.map fun _ _ h => (Item.symbol.inj h).2

theorem disjoint_scopeItems {id id' : ScopeId} (h : id ≠ id') :
    (t.scopeItems id).Disjoint (t.scopeItems id') := by
  intro item hmem hmem'
  obtain rfl | ⟨i, -, rfl⟩ := mem_scopeItems.mp hmem <;>
    obtain hitem | ⟨j, -, hitem⟩ := mem_scopeItems.mp hmem' <;>
    cases hitem <;> exact h rfl

variable (t) in
/-- The items of a table are those of its scopes, those of the global scope
taken together. -/
theorem items_perm : t.items.Perm (t.ids.flatMap t.scopeItems) := by
  rw [ids, List.flatMap_cons, List.flatMap_map]
  exact List.Perm.cons _ List.perm_append_comm

/-- **All that a table has is drawn**, and nothing else. -/
theorem mem_items {item : Item} : item ∈ t.items ↔ t.HasItem item := by
  rw [(items_perm t).mem_iff, List.mem_flatMap]
  constructor
  · rintro ⟨id, hid, hitem⟩
    have hid := mem_ids.mp hid
    obtain rfl | ⟨i, hi, rfl⟩ := mem_scopeItems.mp hitem
    · exact hid
    · exact ⟨hid, hi⟩
  · intro h
    cases item with
    | scope id => exact ⟨id, mem_ids.mpr h, mem_scopeItems.mpr (.inl rfl)⟩
    | symbol id i =>
      exact ⟨id, mem_ids.mpr h.1, mem_scopeItems.mpr (.inr ⟨i, h.2, rfl⟩)⟩

/-- **Nothing is drawn twice.** -/
theorem nodup_items : t.items.Nodup :=
  (items_perm t).nodup_iff.mpr (List.nodup_flatMap.mpr
    ⟨fun id _ => nodup_scopeItems id, nodup_ids.imp disjoint_scopeItems⟩)

variable (quoted t) in
/-- **Whether a table is drawn as a text**: at every depth from three on the
walk ends, and has written the text, with a line for everything in the table,
each under its caption and none twice. -/
def IsDrawn (text : String) : Prop :=
  ∃ drawn : List (Item × String),
    (∀ depth, 3 ≤ depth →
      t.draw quoted depth "" "" (.scope .global) = some drawn)
    ∧ joinLines (drawn.map Prod.snd) = text
    ∧ (drawn.map Prod.fst).Nodup
    ∧ (∀ item, item ∈ drawn.map Prod.fst ↔ t.HasItem item)
    ∧ ∀ p ∈ drawn, ∃ start, p.2 = start ++ t.caption quoted p.1

variable (quoted t) in
/-- **Every table is drawn**, as its outline. -/
theorem isDrawn : t.IsDrawn quoted (t.outlineIn quoted).render := by
  obtain ⟨drawn, hdrawn, hdraws⟩ := exists_draw quoted t 0
  refine ⟨drawn, fun depth hdepth => ?_, congrArg joinLines hdraws.lines,
    hdraws.items ▸ nodup_items, fun item => hdraws.items ▸ mem_items,
    hdraws.captions⟩
  -- a drawing is told by its items and its lines
  obtain ⟨depth, rfl⟩ := Nat.exists_eq_add_of_le' hdepth
  obtain ⟨drawn', hdrawn', hdraws'⟩ := exists_draw quoted t depth
  rw [hdrawn', List.zip_of_prod hdraws'.items hdraws'.lines,
    List.zip_of_prod hdraws.items hdraws.lines]

end SymbolTable

end Primer
