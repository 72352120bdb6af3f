import MiniJ.Proofs.Arena.Numbering
import MiniJ.Proofs.Semantic.Info

/-!
# Every node belongs to a member

The trees of the members of a parsed program fill its arena behind the root, so no node is left
over. In the body of a function the locals come first, and no statement behind them declares
anything.

## Main definitions

* `Arena.Complete` — no node is left over, and locals come first.
* `Arena.Spread` — the functions share no node, in whatever order they come.

## Main statements

* `Arena.Complete.covered`, `Arena.Complete.apart` — every node belongs to exactly one member.
* `Arena.exists_complete_ofProgram` — the arena of a parsed program is complete.
-/
namespace MiniJ

/-- The numbers of all members. -/
def UnitNode.members (u : UnitNode) : List NodeId := u.globals ++ u.records ++ u.functions

theorem UnitNode.mem_members {u : UnitNode} {m : NodeId} :
    m ∈ u.members ↔ m ∈ u.globals ∨ m ∈ u.records ∨ m ∈ u.functions := by
  simp [members]

/-- The variable a statement declares. -/
def NodeKind.declared? : NodeKind → Option NodeId
  | declare d => some d
  | _ => none

namespace Arena

variable {a : Arena}

/-- A body declares its locals in front of its first other statement. -/
def LocalsFirst (a : Arena) (body : List NodeId) : Prop :=
  ∃ locals rest, body = locals ++ rest ∧ (∀ l ∈ locals, ∃ d, a.kind l = .ok (.declare d)) ∧
    ∀ r ∈ rest, ∀ x d, a.Below r x → a.kind x ≠ .ok (.declare d)

/-- How the nodes of a parsed program are spread over its members. -/
structure Complete (a : Arena) (u : UnitNode) : Prop where
  layout : a.Layout 1 u
  /-- The trees of the members fill the numbers behind the root. -/
  tiled : ∃ parts, (∀ m, m ∈ parts.map Prod.fst ↔ m ∈ u.members) ∧ Tiles 1 parts (a.size + 1) ∧
    ∀ p ∈ parts, a.Tree p.2 p.1
  localsFirst : ∀ id ∈ u.functions, ∀ f, a.kind id = .ok (.function f) → a.LocalsFirst f.body

/-- Two subtrees, each given by its root and the number before its first node, share no node. -/
def Apart (p q : Nat × Nat) : Prop := p.1 ≤ q.2 ∨ q.1 ≤ p.2

theorem Apart.symm {p q : Nat × Nat} (h : Apart p q) : Apart q p := Or.symm h

/-- The members of a program are trees, and no two functions share a node. Nothing is said about
the order of the functions. -/
structure Spread (a : Arena) (u : UnitNode) : Prop where
  globals : ∀ g ∈ u.globals, a.IsDeclaration g ∧ ∃ start, a.Tree start g
  records : ∀ r ∈ u.records, (∃ d, a.kind r = .ok (.record d)) ∧ ∃ start, a.Tree start r
  functions : ∃ parts : List (Nat × Nat), parts.map Prod.fst = u.functions ∧ parts.Pairwise Apart ∧
    ∀ p ∈ parts, (∃ f, a.kind p.1 = .ok (.function f)) ∧ a.Tree p.2 p.1
  localsFirst : ∀ id ∈ u.functions, ∀ f, a.kind id = .ok (.function f) → a.LocalsFirst f.body

theorem Spread.function_tree {u : UnitNode} {d : Nat} (h : a.Spread u) (hd : d ∈ u.functions) :
    (∃ f, a.kind d = .ok (.function f)) ∧ ∃ start, a.Tree start d := by
  obtain ⟨parts, hparts, -, htrees⟩ := h.functions
  obtain ⟨p, hp, rfl⟩ := List.mem_map.1 (hparts ▸ hd)
  exact ⟨(htrees p hp).1, p.2, (htrees p hp).2⟩

theorem Ascends.pairwise {lo : Nat} {parts : List (Nat × Nat)} (h : Ascends lo parts)
    (hlt : ∀ p ∈ parts, p.2 < p.1) : parts.Pairwise Apart ∧ ∀ p ∈ parts, lo ≤ p.2 := by
  induction parts generalizing lo with
  | nil => simp
  | cons p rest ih =>
    obtain ⟨hlo, hrest⟩ := h
    have hp : p.2 < p.1 := hlt p (by simp)
    obtain ⟨hpairs, hbounds⟩ := ih hrest fun q hq => hlt q (by simp [hq])
    refine ⟨List.pairwise_cons.2 ⟨fun q hq => .inl (hbounds q hq), hpairs⟩, fun q hq => ?_⟩
    rcases List.mem_cons.1 hq with rfl | hq
    · exact hlo
    · have := hbounds q hq
      omega

theorem Complete.spread {u : UnitNode} (h : a.Complete u) : a.Spread u := by
  obtain ⟨parts, hparts, hasc, htrees⟩ := h.layout.functions
  exact ⟨h.layout.globals, h.layout.records,
    ⟨parts, hparts, (hasc.pairwise fun p hp => (htrees p hp).2.lt).1, htrees⟩, h.localsFirst⟩

/-- Every number inside of a tiling belongs to a part. -/
theorem Tiles.exists_part {lo id i : Nat} {parts : List (Nat × Nat)} (h : Tiles lo parts id)
    (hlo : lo < i) (hid : i < id) : ∃ p ∈ parts, p.2 < i ∧ i ≤ p.1 := by
  induction parts generalizing lo with
  | nil =>
    simp only [Tiles] at h
    omega
  | cons q rest ih =>
    obtain ⟨c, start⟩ := q
    obtain ⟨rfl, h⟩ := h
    by_cases hc : i ≤ c
    · exact ⟨(c, start), by simp, hlo, hc⟩
    · obtain ⟨p, hp, hi⟩ := ih h (by omega)
      exact ⟨p, by simp [hp], hi⟩

/-- A subtree holds all nodes of its interval. -/
theorem Tree.below_of_le {lo id i : Nat} (h : a.Tree lo id) (hlo : lo < i) (hid : i ≤ id) :
    a.Below id i := by
  induction h with
  | @node lo id k parts kind _ children tiles _ _ ih =>
    by_cases heq : i = id
    · subst heq
      exact .self i
    · obtain ⟨p, hp, hi, hle⟩ := tiles.exists_part hlo (by omega)
      exact .child kind (children ▸ List.mem_map_of_mem hp) (ih p hp hi hle)

/-- Every node but the root belongs to a member. -/
theorem Complete.covered {u : UnitNode} (h : a.Complete u) {id : Nat} {k : NodeKind}
    (hk : a.kind id = .ok k) : id = NodeId.root ∨ ∃ m ∈ u.members, a.Below m id := by
  obtain ⟨parts, hmem, htiles, htrees⟩ := h.tiled
  have hbounds := bounds_of_kind hk
  by_cases hroot : id = NodeId.root
  · exact .inl hroot
  · have hone : id ≠ (1 : Nat) := hroot
    obtain ⟨p, hp, hlo, hhi⟩ := htiles.exists_part (i := id) (by omega) (by omega)
    exact .inr ⟨p.1, (hmem p.1).1 (List.mem_map_of_mem hp), (htrees p hp).below_of_le hlo hhi⟩

/-- No node belongs to two members. -/
theorem Complete.apart {u : UnitNode} (h : a.Complete u) {m m' x : Nat} (hm : m ∈ u.members)
    (hm' : m' ∈ u.members) (hx : a.Below m x) (hx' : a.Below m' x) : m = m' := by
  obtain ⟨parts, hmem, htiles, htrees⟩ := h.tiled
  obtain ⟨p, hp, rfl⟩ := List.mem_map.1 ((hmem m).2 hm)
  obtain ⟨q, hq, rfl⟩ := List.mem_map.1 ((hmem m').2 hm')
  obtain ⟨start, hsub, hlo, hle⟩ := (htrees p hp).sub hx
  obtain ⟨start', hsub', hlo', hle'⟩ := (htrees q hq).sub hx'
  have hlt := hsub.lt
  have hlt' := hsub'.lt
  exact congrArg Prod.fst (htiles.eq_of_overlap (fun p hp => (htrees p hp).lt) hp hq
    (i := x) ⟨by omega, hle⟩ ⟨by omega, hle'⟩)

/-- A node without children holds only itself. -/
theorem Below.eq_of_leaf {id x : Nat} {k : NodeKind} (h : a.Below id x) (hk : a.kind id = .ok k)
    (hleaf : k.children = []) : x = id := by
  cases h with
  | self => rfl
  | child hk' hmem =>
    cases hk.symm.trans hk'
    simp [hleaf] at hmem

/-- Below a declaration there is only the declaration. -/
theorem IsDeclaration.of_below {id x : Nat} (h : a.IsDeclaration id) (hx : a.Below id x) :
    a.IsDeclaration x := by
  obtain ⟨b, hb⟩ := h
  obtain rfl := hx.eq_of_leaf hb rfl
  exact ⟨b, hb⟩

/-- Expressions and statements lie in the bodies of functions. -/
theorem Complete.exists_body {u : UnitNode} (h : a.Complete u) (hu : a.unit? = some u) {id : Nat}
    {k : NodeKind} (hk : a.kind id = .ok k) (hrole : k.role = .expression ∨ k.role = .statement) :
    ∃ d ∈ u.functions, ∃ f, a.kind d = .ok (.function f) ∧ ∃ r ∈ f.body, a.Below r id := by
  have hdeclaration : ¬a.IsDeclaration id := by
    rintro ⟨b, hb⟩
    cases hk.symm.trans hb
    simp [NodeKind.role] at hrole
  rcases h.covered hk with rfl | ⟨m, hm, hbelow⟩
  · obtain ⟨span, hroot⟩ := node_root_of_unit? hu
    cases hk.symm.trans (kind_eq_ok_iff.2 ⟨span, hroot⟩)
    simp [NodeKind.role] at hrole
  rcases UnitNode.mem_members.1 hm with hm | hm | hm
  · exact absurd ((h.layout.globals m hm).1.of_below hbelow) hdeclaration
  · obtain ⟨⟨r, hr⟩, start, htree⟩ := h.layout.records m hm
    cases hbelow with
    | self =>
      cases hk.symm.trans hr
      simp [NodeKind.role] at hrole
    | child hk' hmem hx =>
      cases hr.symm.trans hk'
      exact absurd ((htree.isDeclaration_field hr hmem).of_below hx) hdeclaration
  · obtain ⟨⟨f, hf⟩, start, htree⟩ := h.layout.function_tree hm
    cases hbelow with
    | self =>
      cases hk.symm.trans hf
      simp [NodeKind.role] at hrole
    | @child _ c _ _ hk' hmem hx =>
      cases hf.symm.trans hk'
      rcases List.mem_append.1 hmem with hparam | hbody
      · exact absurd ((htree.isDeclaration_param hf hparam).of_below hx) hdeclaration
      · exact ⟨_, hm, f, hf, c, hbody, hx⟩

end Arena

namespace Flatten

/-! ### What a step adds -/

/-- All nodes behind the old ones have a property. -/
structure Adds (P : NodeKind → Prop) (old new : Array Node) : Prop where
  grows : Extends old new
  added : ∀ i n, old.size ≤ i → new[i]? = some n → P n.kind

variable {P : NodeKind → Prop} {x y z : Array Node}

theorem Adds.refl (x : Array Node) : Adds P x x := by
  refine ⟨.refl x, fun i n hi h => ?_⟩
  obtain ⟨hlt, -⟩ := Array.getElem?_eq_some_iff.1 h
  omega

theorem Adds.trans (h : Adds P x y) (h' : Adds P y z) : Adds P x z := by
  refine ⟨h.grows.trans h'.grows, fun i n hi hn => ?_⟩
  by_cases hlt : i < y.size
  · exact h.added i n hi ((h'.grows.2 i hlt).symm.trans hn)
  · exact h'.added i n (by omega) hn

theorem Adds.push (h : Adds P x y) {k : NodeKind} (hk : P k) (s : Span) :
    Adds P x (Flatten.push k s y).2 := by
  refine h.trans ⟨extends_push y ⟨k, s⟩, fun i n hi hn => ?_⟩
  simp only [Flatten.push, Array.getElem?_push] at hn
  split at hn
  · cases hn
    exact hk
  · obtain ⟨hlt, -⟩ := Array.getElem?_eq_some_iff.1 hn
    omega

/-- Nodes of an arena that a step has added. -/
theorem Adds.kind (h : Adds P x y) {a : Arena} (ha : Holds a x.size y) {i : Nat} {k : NodeKind}
    (hlo : x.size < i) (hi : i ≤ y.size) (hk : a.kind i = .ok k) : P k := by
  obtain ⟨span, hnode⟩ := Arena.kind_eq_ok_iff.1 hk
  cases i with
  | zero => omega
  | succ i =>
    have hsome : a.nodes[i]? = some ⟨k, span⟩ := Arena.node_eq_ok_iff.1 hnode
    exact h.added i ⟨k, span⟩ (by omega) ((ha i (by omega) hi).symm.trans hsome)

/-! ### Statements declare nothing -/

/-- Nodes that declare nothing. -/
abbrev Undeclaring (k : NodeKind) : Prop := k.declared? = none

mutual

theorem adds_expr (e : Expr) (nodes : Array Node) : Adds Undeclaring nodes (expr e nodes).2 := by
  match e with
  | .int .. | .text .. | .bool .. | .var .. => exact (Adds.refl nodes).push (by rfl) _
  | .field _ base _ => exact (adds_expr base nodes).push (by rfl) _
  | .element _ base index =>
    exact ((adds_expr base nodes).trans (adds_expr index _)).push (by rfl) _
  | .unary _ _ operand => exact (adds_expr operand nodes).push (by rfl) _
  | .binary _ _ left right =>
    exact ((adds_expr left nodes).trans (adds_expr right _)).push (by rfl) _
  | .call _ _ args => exact (adds_exprs args nodes).push (by rfl) _

theorem adds_exprs (args : List Expr) (nodes : Array Node) :
    Adds Undeclaring nodes (exprs args nodes).2 := by
  match args with
  | [] => exact .refl nodes
  | e :: rest => exact (adds_expr e nodes).trans (adds_exprs rest _)

end

mutual

theorem adds_statement (t : Statement) (nodes : Array Node) :
    Adds Undeclaring nodes (statement t nodes).2 := by
  match t with
  | .block _ body => exact (adds_statements body nodes).push (by rfl) _
  | .assign _ target value =>
    exact ((adds_expr target nodes).trans (adds_expr value _)).push (by rfl) _
  | .call _ call => exact (adds_expr call nodes).push (by rfl) _
  | .branch _ condition onTrue onFalse =>
    exact (((adds_expr condition nodes).trans (adds_statement onTrue _)).trans
      (adds_statement? onFalse _)).push (by rfl) _
  | .loop _ condition body =>
    exact ((adds_expr condition nodes).trans (adds_statement body _)).push (by rfl) _
  | .ret _ none | .empty _ => exact (Adds.refl nodes).push (by rfl) _
  | .ret _ (some value) => exact (adds_expr value nodes).push (by rfl) _

theorem adds_statement? (t : Option Statement) (nodes : Array Node) :
    Adds Undeclaring nodes (statement? t nodes).2 := by
  match t with
  | none => exact .refl nodes
  | some t => exact adds_statement t nodes

theorem adds_statements (body : List Statement) (nodes : Array Node) :
    Adds Undeclaring nodes (statements body nodes).2 := by
  match body with
  | [] => exact .refl nodes
  | t :: rest => exact (adds_statement t nodes).trans (adds_statements rest _)

end

/-! ### Members -/

/-- Local declarations are statements that declare. -/
theorem kind_localDeclarations {ds : List Declaration} {nodes : Array Node} {a : Arena}
    (hds : ∀ d ∈ ds, d.Shaped ∧ d.isReference = false)
    (ha : Holds a nodes.size (ds.mapM localDeclaration nodes).2) :
    ∀ l ∈ (ds.mapM localDeclaration nodes).1, ∃ d, a.kind l = .ok (.declare d) := by
  induction ds generalizing nodes with
  | nil =>
    intro l hl
    cases hl
  | cons d rest ih =>
    rw [List.mapM_cons] at ha ⊢
    have hfirst := numbered_localDeclaration (hds d (by simp)) nodes
    have hds' : ∀ d' ∈ rest, d'.Shaped ∧ d'.isReference = false :=
      fun d' hd => hds d' (by simp [hd])
    have hrest := numbered_mapM (fun d' hd => numbered_localDeclaration (hds' d' hd))
      (localDeclaration d nodes).2
    have hmid : nodes.size ≤ (declaration d nodes).2.size := (extends_push nodes _).1
    intro l hl
    rcases List.mem_cons.1 hl with rfl | hl
    · exact ⟨_, (ha.of_extends hrest.grows).kind_last hmid⟩
    · exact ih hds' (ha.mono hfirst.grows.1) l hl

theorem localsFirst_function {f : FunctionDef} (h : f.Shaped) {nodes : Array Node} {a : Arena}
    (ha : Holds a nodes.size (function f nodes).2) {g : FunctionNode}
    (hg : a.kind (function f nodes).1 = .ok (.function g)) : a.LocalsFirst g.body := by
  have hlast := ha.kind_last (numbered_parts h nodes).grows.1
  cases hlast.symm.trans hg
  have hp := numbered_mapM (fun d hd => numbered_declaration (h.params d hd)) nodes
  have hl := numbered_mapM (fun d hd => numbered_localDeclaration (h.locals d hd))
    (f.params.mapM declaration nodes).2
  have hb := numbered_statements h.body
    (f.locals.mapM localDeclaration (f.params.mapM declaration nodes).2).2
  have hall := ha.of_extends (extends_push _ _)
  refine ⟨_, _, rfl, kind_localDeclarations h.locals
    ((hall.of_extends hb.grows).mono hp.grows.1), fun r hr x d hx => ?_⟩
  have hbody := hall.mono (Nat.le_trans hp.grows.1 hl.grows.1)
  obtain ⟨parts, hparts, htiles, htrees⟩ := hb.trees a hbody
  obtain ⟨p, hp', rfl⟩ := List.mem_map.1 (hparts.symm ▸ hr)
  obtain ⟨hlo, hhi⟩ := (htiles.bounds fun p hp => (htrees p hp).lt).2 p hp'
  obtain ⟨start, hsub, hstart, hle⟩ := (htrees p hp').sub hx
  have hlt := hsub.lt
  intro hk
  have hnone := (adds_statements f.body
    (f.locals.mapM localDeclaration (f.params.mapM declaration nodes).2).2).kind hbody
    (by omega) (by omega) hk
  cases hnone

/-- The trees of the members fill the numbers behind the old ones. -/
theorem tiled_members {ms : List Member} (h : ∀ m ∈ ms, m.Shaped) {nodes : Array Node} {a : Arena}
    (ha : Holds a nodes.size (members ms nodes).2) :
    ∃ parts, (∀ m, m ∈ parts.map Prod.fst ↔ m ∈ (members ms nodes).1.members) ∧
      Arena.Tiles nodes.size parts ((members ms nodes).2.size + 1) ∧
      ∀ p ∈ parts, a.Tree p.2 p.1 := by
  induction ms generalizing nodes with
  | nil =>
    refine ⟨[], fun m => ?_, rfl, by simp⟩
    have hempty : (members [] nodes).1 = ⟨[], [], []⟩ := rfl
    simp [hempty, UnitNode.members]
  | cons m ms ih =>
    have hms : ∀ m' ∈ ms, m'.Shaped := fun m' hm => h m' (by simp [hm])
    have hm := h m (by simp)
    -- the first member stands in front of the others
    have hfront : ∀ {id new}, Numbered nodes id new →
        (members (m :: ms) nodes).2 = (members ms new).2 →
        (∀ m', m' ∈ (members (m :: ms) nodes).1.members ↔
          m' = id ∨ m' ∈ (members ms new).1.members) →
        ∃ parts, (∀ m', m' ∈ parts.map Prod.fst ↔ m' ∈ (members (m :: ms) nodes).1.members) ∧
          Arena.Tiles nodes.size parts ((members (m :: ms) nodes).2.size + 1) ∧
          ∀ p ∈ parts, a.Tree p.2 p.1 := by
      intro id new hnum heq hunit
      rw [heq] at ha ⊢
      obtain ⟨parts, hmem, htiles, htrees⟩ := ih hms (ha.mono hnum.grows.1)
      refine ⟨(id, nodes.size) :: parts, fun m' => ?_, ⟨rfl, hnum.last ▸ htiles⟩, fun p hp => ?_⟩
      · rw [List.map_cons, List.mem_cons, hmem, hunit]
      · rcases List.mem_cons.1 hp with rfl | hp
        · exact hnum.tree a (ha.of_extends (members_at hms new).1)
        · exact htrees p hp
    cases m with
    | global d =>
      have hunit : (members (.global d :: ms) nodes).1 =
          { (members ms (declaration d nodes).2).1 with
            globals := (declaration d nodes).1 ::
              (members ms (declaration d nodes).2).1.globals } := rfl
      exact hfront (numbered_declaration hm nodes).toNumbered rfl fun m' => by
        simp only [hunit, UnitNode.mem_members, List.mem_cons]
        tauto
    | record r =>
      have hunit : (members (.record r :: ms) nodes).1 =
          { (members ms (record r nodes).2).1 with
            records := (record r nodes).1 :: (members ms (record r nodes).2).1.records } := rfl
      exact hfront (numbered_record hm nodes) rfl fun m' => by
        simp only [hunit, UnitNode.mem_members, List.mem_cons]
        tauto
    | function f =>
      have hunit : (members (.function f :: ms) nodes).1 =
          { (members ms (function f nodes).2).1 with
            functions := (function f nodes).1 :: (members ms (function f nodes).2).1.functions } :=
              rfl
      exact hfront (numbered_function hm nodes) rfl fun m' => by
        simp only [hunit, UnitNode.mem_members, List.mem_cons]
        tauto

/-- The functions among the members declare their locals first. -/
theorem localsFirst_members {ms : List Member} (h : ∀ m ∈ ms, m.Shaped) {nodes : Array Node}
    {a : Arena} (ha : Holds a nodes.size (members ms nodes).2) :
    ∀ id ∈ (members ms nodes).1.functions, ∀ f, a.kind id = .ok (.function f) →
      a.LocalsFirst f.body := by
  induction ms generalizing nodes with
  | nil =>
    intro id hid
    cases hid
  | cons m ms ih =>
    have hms : ∀ m' ∈ ms, m'.Shaped := fun m' hm => h m' (by simp [hm])
    have hm := h m (by simp)
    cases m with
    | global d => exact ih hms (ha.mono (numbered_declaration hm nodes).grows.1)
    | record r => exact ih hms (ha.mono (numbered_record hm nodes).grows.1)
    | function f =>
      have hf := numbered_function hm nodes
      intro id hid g hg
      rcases List.mem_cons.1 hid with rfl | hid
      · exact localsFirst_function hm (ha.of_extends (members_at hms _).1) hg
      · exact ih hms (ha.mono hf.grows.1) id hid g hg

end Flatten

/-- The arena of a shaped program is complete. -/
theorem Arena.exists_complete_ofProgram {p : Program} (h : p.Shaped) :
    ∃ u, (Arena.ofProgram p).unit? = some u ∧ (Arena.ofProgram p).Complete u := by
  obtain ⟨u, hu, hlayout⟩ := Arena.exists_layout_ofProgram h
  suffices hrest : _ ∧ _ from ⟨u, hu, hlayout, hrest.1, hrest.2⟩
  have hgrows := (Flatten.members_at h #[⟨.dummy, Span.empty⟩]).1
  have htiled := @Flatten.tiled_members p.members h #[⟨.dummy, Span.empty⟩]
  have hlocals := @Flatten.localsFirst_members p.members h #[⟨.dummy, Span.empty⟩]
  clear hlayout
  unfold Arena.ofProgram at hu ⊢
  generalize Flatten.members p.members #[⟨.dummy, Span.empty⟩] = result at *
  obtain ⟨u', nodes⟩ := result
  have hsize : 0 < nodes.size := hgrows.1
  obtain rfl : u' = u := by simpa [Arena.unit?, NodeId.root, Arena.node?, hsize] using hu
  have hholds : Flatten.Holds ⟨nodes.setIfInBounds 0 ⟨.unit u', p.span⟩⟩ 1 nodes := by
    intro i hlo hi
    have h0 : 0 ≠ i := by omega
    simp [h0]
  refine ⟨?_, hlocals hholds⟩
  have hsame : (⟨nodes.setIfInBounds 0 ⟨.unit u', p.span⟩⟩ : Arena).size = nodes.size := by
    simp [Arena.size]
  rw [hsame]
  exact htiled hholds

end MiniJ
