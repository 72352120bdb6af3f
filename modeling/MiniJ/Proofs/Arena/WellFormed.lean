import MiniJ.Proofs.Arena.Addition
import MiniJ.Proofs.Arena.Parent
import MiniJ.Proofs.Tree.Roundtrip

/-!
# Well-formed arenas

The arena of a parsed program is a tree that holds every node once, and the parts of each node are
what the syntax says: declarations, blocks, calls and places.

## Main definitions

* `Arena.Fitting` — the parts of a node are of the right kinds.
* `Arena.WellFormed` — a tree of fitting nodes.

## Main statements

* `Program.wellFormed_ofProgram` — parsing builds well-formed arenas.
-/
namespace MiniJ

namespace Arena

variable {a : Arena} {u : UnitNode}

/-- The node is a block. -/
def IsBlock (a : Arena) (id : NodeId) : Prop := ∃ body, a.kind id = .ok (.block body)

/-- The node is a call. -/
def IsCall (a : Arena) (id : NodeId) : Prop := ∃ name args, a.kind id = .ok (.call name args)

/-- Branches and loop bodies are blocks. -/
def Braces (a : Arena) : NodeKind → Prop
  | .branch _ onTrue onFalse => a.IsBlock onTrue ∧ ∀ s ∈ onFalse, a.IsBlock s
  | .loop _ body => a.IsBlock body
  | _ => True

/-- The parts of a node are of the kinds that the syntax asks for. The body of a function declares
its locals in front of its first other statement, and no other node declares locals. -/
def Fitting (a : Arena) : NodeKind → Prop
  | .unit u => (∀ g ∈ u.globals, a.IsDeclaration g) ∧
      (∀ r ∈ u.records, ∃ record, a.kind r = .ok (.record record)) ∧
      ∀ f ∈ u.functions, ∃ function, a.kind f = .ok (.function function)
  | .record r => ∀ d ∈ r.fields, a.IsDeclaration d
  | .function f => (∀ d ∈ f.params, a.IsDeclaration d) ∧ ∃ locals rest, f.body = locals ++ rest ∧
      (∀ s ∈ locals, ∃ d, a.kind s = .ok (.declare d)) ∧ ∀ s ∈ rest, ∀ d, a.kind s ≠
      .ok (.declare d)
  | .declare d => a.IsDeclaration d
  | .branch _ onTrue onFalse => a.IsBlock onTrue ∧ ∀ s ∈ onFalse, a.IsBlock s
  | .loop _ body => a.IsBlock body
  | .block body => ∀ s ∈ body, ∀ d, a.kind s ≠ .ok (.declare d)
  | .callStatement c => a.IsCall c
  | .assign target _ => a.IsPlace target
  | .field base _ | .element base _ => a.IsPlace base
  | _ => True

/-- The nodes of an arena form a tree with the only unit at its root, and all of them fit. -/
structure WellFormed (a : Arena) : Prop where
  root : ∃ u, a.kind NodeId.root = .ok (.unit u)
  unit : ∀ id u, a.kind id = .ok (.unit u) → id = NodeId.root
  dummy : ∀ id, a.kind id ≠ .ok .dummy
  /-- Every node but the root is a child of exactly one node, once. -/
  parent : ∀ id, 1 < id → id ≤ a.size → ∃ p k, a.kind p = .ok k ∧ k.children.count id = 1 ∧
    (id < p ∨ p = NodeId.root) ∧ ∀ p' k', a.kind p' = .ok k' → id ∈ k'.children → p' = p
  /-- A walk from the root visits every node once. -/
  walk : ∃ ids, a.walk NodeId.root = .ok ids ∧ ids.Nodup ∧ ∀ id, id ∈ ids ↔ 1 ≤ id ∧ id ≤ a.size
  fitting : ∀ id k, a.kind id = .ok k → a.Fitting k
  /-- Locals are declared in the body of a function only. -/
  declared : ∀ id d p k, a.kind id = .ok (.declare d) → a.kind p = .ok k → id ∈ k.children →
    ∃ f, k = .function f ∧ id ∈ f.body

end Arena

/-! ### Blocks -/

namespace Flatten

variable {a : Arena}

/-- The branches or the body of an added node are blocks. -/
abbrev BracesAt (a : Arena) (n : Node) : Prop := a.Braces n.kind

theorem isBlock_statement {t : Statement} (h : t.IsBlock) {nodes : Array Node}
    (ha : Holds a nodes.size (statement t nodes).2) : a.IsBlock (statement t nodes).1 := by
  cases t with
  | block s body => exact ⟨_, ha.kind_last (adds_statements body nodes).grows.1⟩
  | assign | call | branch | loop | ret | empty => exact h.elim

mutual

theorem braces_statement {t : Statement} (h : t.Braced) (nodes : Array Node) :
    Provides a (BracesAt a) nodes (statement t nodes).2 := by
  have hexpr : ∀ (e : Expr) (nodes : Array Node), Provides a (BracesAt a) nodes (expr e nodes).2 :=
    provides_expr fun n hn => by
      obtain ⟨k, s⟩ := n
      cases k with
      | branch | loop => cases hn
      | _ => trivial
  match t, h with
  | .block _ body, .block _ braced => exact (braces_statements braced nodes).push fun _ => trivial
  | .assign _ target value, _ =>
    exact ((hexpr target nodes).trans (hexpr value _)).push fun _ => trivial
  | .call _ call, _ => exact (hexpr call nodes).push fun _ => trivial
  | .branch _ condition onTrue onFalse, .branch _ _ isBlock braced otherIsBlock otherBraced =>
    have htrue := braces_statement braced (expr condition nodes).2
    have hfalse := braces_statement? otherBraced (statement onTrue (expr condition nodes).2).2
    refine (((hexpr condition nodes).trans htrue).trans hfalse).push fun ha => ⟨?_, ?_⟩
    · exact isBlock_statement isBlock
        ((ha.of_extends hfalse.grows).mono (hexpr condition nodes).grows.1)
    · have hmid := ha.mono (Nat.le_trans (hexpr condition nodes).grows.1 htrue.grows.1)
      cases onFalse with
      | none => exact fun s hs => by cases hs
      | some other =>
        rintro s ⟨⟩
        exact isBlock_statement (otherIsBlock other rfl) hmid
  | .loop _ condition body, .loop _ _ isBlock braced =>
    have hbody := braces_statement braced (expr condition nodes).2
    refine ((hexpr condition nodes).trans hbody).push fun ha => ?_
    exact isBlock_statement isBlock (ha.mono (hexpr condition nodes).grows.1)
  | .ret _ none, _ | .empty _, _ => exact (Provides.refl nodes).push fun _ => trivial
  | .ret _ (some value), _ => exact (hexpr value nodes).push fun _ => trivial

theorem braces_statement? {t : Option Statement} (h : ∀ s ∈ t, s.Braced) (nodes : Array Node) :
    Provides a (BracesAt a) nodes (statement? t nodes).2 := by
  match t, h with
  | none, _ => exact .refl nodes
  | some t, h => exact braces_statement (h t rfl) nodes

theorem braces_statements {body : List Statement} (h : ∀ s ∈ body, s.Braced) (nodes : Array Node) :
    Provides a (BracesAt a) nodes (statements body nodes).2 := by
  match body, h with
  | [], _ => exact .refl nodes
  | t :: rest, h =>
    exact (braces_statement (h t (by simp)) nodes).trans
      (braces_statements (fun t' ht => h t' (by simp [ht])) _)

end

theorem braces_members {ms : List Member} (h : ∀ m ∈ ms, m.Plain) (nodes : Array Node) :
    Provides a (BracesAt a) nodes (members ms nodes).2 := by
  have hdeclaration : ∀ (d : Declaration) nodes, Provides a (BracesAt a) nodes
      (declaration d nodes).2 :=
    fun d nodes => (Provides.refl nodes).push fun _ => trivial
  have hlocal : ∀ (d : Declaration) nodes,
      Provides a (BracesAt a) nodes (localDeclaration d nodes).2 :=
    fun d nodes => (hdeclaration d nodes).push fun _ => trivial
  induction ms generalizing nodes with
  | nil => exact .refl nodes
  | cons m ms ih =>
    have hrest := ih fun m' hm => h m' (by simp [hm])
    have hm := h m (by simp)
    cases m with
    | global d => exact (hdeclaration d nodes).trans (hrest _)
    | record r =>
      have hfields := Provides.mapM (fun d (_ : d ∈ r.fields) => hdeclaration d) nodes
      have hrecord : Provides a (BracesAt a) nodes (record r nodes).2 :=
        hfields.push fun _ => trivial
      exact hrecord.trans (hrest _)
    | function f =>
      have hparams := Provides.mapM (fun d (_ : d ∈ f.params) => hdeclaration d) nodes
      have hlocals := Provides.mapM (fun d (_ : d ∈ f.locals) => hlocal d)
        (f.params.mapM declaration nodes).2
      have hbody := braces_statements (a := a) hm
        (f.locals.mapM localDeclaration (f.params.mapM declaration nodes).2).2
      have hfunction : Provides a (BracesAt a) nodes (function f nodes).2 :=
        ((hparams.trans hlocals).trans hbody).push fun _ => trivial
      exact hfunction.trans (hrest _)

end Flatten

/-! ### Programs -/

/-- The unit and the nodes behind the root. -/
abbrev Program.numbered (p : Program) : UnitNode × Array Node :=
  Flatten.members p.members #[⟨.dummy, Span.empty⟩]

theorem Arena.nodes_ofProgram (p : Program) :
    (Arena.ofProgram p).nodes = p.numbered.2.setIfInBounds 0 ⟨.unit p.numbered.1, p.span⟩ := rfl

theorem Arena.node_root_ofProgram {p : Program} {n : Node}
    (h : (Arena.ofProgram p).node NodeId.root = .ok n) : n = ⟨.unit p.numbered.1, p.span⟩ := by
  have hnode : (Arena.ofProgram p).nodes[0]? = some n := node_eq_ok_iff.1 h
  rw [nodes_ofProgram, Array.getElem?_setIfInBounds_self] at hnode
  split at hnode
  · exact (Option.some.inj hnode).symm
  · cases hnode

theorem Arena.unit?_ofProgram {p : Program} {u : UnitNode}
    (h : (Arena.ofProgram p).unit? = some u) :
    u = p.numbered.1 := by
  obtain ⟨span, hroot⟩ := node_root_of_unit? h
  cases node_root_ofProgram hroot
  rfl

/-- The arena of a program holds the nodes of the members. -/
theorem Flatten.holds_ofProgram (p : Program) : Holds (Arena.ofProgram p) 1 p.numbered.2 :=
  fun i hlo _ => by
    rw [Arena.nodes_ofProgram, Array.getElem?_setIfInBounds_ne (Nat.ne_of_lt hlo)]

/-- The nodes behind the root are those that numbering the members adds. -/
theorem Flatten.Provides.ofProgram {p : Program} {P : Node → Prop} {id : NodeId} {n : Node}
    (h : Provides (Arena.ofProgram p) P #[⟨.dummy, Span.empty⟩] p.numbered.2)
    (hn : (Arena.ofProgram p).node id = .ok n) (hid : id ≠ NodeId.root) : P n := by
  have hbounds := Arena.bounds_of_kind (Arena.kind_eq_ok_iff.2 ⟨n.span, hn⟩)
  have hsize : (Arena.ofProgram p).size = p.numbered.2.size := by
    rw [Arena.size, Arena.nodes_ofProgram, Array.size_setIfInBounds]
  exact h.node (holds_ofProgram p) (Nat.lt_of_le_of_ne hbounds.1 (Ne.symm hid))
    (hsize ▸ hbounds.2) hn

namespace Arena

variable {a : Arena} {u : UnitNode} {id : NodeId}

/-- A node that is a member of a program is one of its members. -/
theorem Complete.mem_members (h : a.Complete u) {k : NodeKind} (hk : a.kind id = .ok k)
    (hrole : k.role = .member) (hid : id ≠ NodeId.root) : id ∈ u.members := by
  obtain ⟨m, hm, hbelow, -⟩ := (h.exists_tree_of_kind hk).resolve_left hid
  rcases hbelow.exists_parent with rfl | ⟨p, k', hp, hk', hmem⟩
  · exact hm
  · obtain ⟨start, -, htree⟩ := h.exists_tree_of_member hm
    obtain ⟨start', htree', -⟩ := htree.sub hp
    obtain ⟨k'', hk'', hpart⟩ := htree'.isPart_child hk' hmem
    cases hk''.symm.trans hk
    exact absurd hrole hpart

/-- The members of a program are declarations, records and functions. -/
theorem Complete.kind_member (h : a.Complete u) (hid : id ∈ u.members) :
    a.IsDeclaration id ∨ (∃ r, a.kind id = .ok (.record r)) ∨
      id ∈ u.functions ∧ ∃ f, a.kind id = .ok (.function f) := by
  rcases UnitNode.mem_members.1 hid with hg | hr | hf
  · exact .inl (h.layout.globals id hg).1
  · exact .inr (.inl (h.layout.records id hr).1)
  · exact .inr (.inr ⟨hf, (h.layout.function_tree hf).1⟩)

theorem Complete.mem_functions (h : a.Complete u) (hu : a.unit? = some u) {f : FunctionNode}
    (hk : a.kind id = .ok (.function f)) : id ∈ u.functions := by
  obtain ⟨span, hroot⟩ := node_root_of_unit? hu
  have hid : id ≠ NodeId.root := by
    rintro rfl
    cases hk.symm.trans (kind_eq_ok_iff.2 ⟨span, hroot⟩)
  rcases h.kind_member (h.mem_members hk rfl hid) with ⟨b, hb⟩ | ⟨r, hr⟩ | ⟨hf, -⟩
  · cases hk.symm.trans hb
  · cases hk.symm.trans hr
  · exact hf

/-- A statement that declares is a statement of the body of a function. -/
theorem Complete.exists_function (h : a.Complete u) (hu : a.unit? = some u) {d : NodeId}
    (hk : a.kind id = .ok (.declare d)) :
    ∃ g f, a.kind g = .ok (.function f) ∧ id ∈ f.body := by
  obtain ⟨g, hg, f, hf, r, hr, hbelow⟩ := h.exists_body hu hk (.inr rfl)
  obtain ⟨locals, rest, hbody, hlocals, hrest⟩ := h.localsFirst g hg f hf
  rw [hbody, List.mem_append] at hr
  rcases hr with hr | hr
  · -- a local has nothing below it but its declaration
    obtain ⟨d', hd'⟩ := hlocals r hr
    cases hbelow with
    | self => exact ⟨g, f, hf, hbody ▸ List.mem_append_left _ hr⟩
    | child hk' hmem hx =>
      cases hk'.symm.trans hd'
      obtain ⟨-, -, -, _, -, htree⟩ := (h.exists_tree_of_kind hd').resolve_left (by
        rintro rfl
        obtain ⟨span, hroot⟩ := node_root_of_unit? hu
        cases hd'.symm.trans (kind_eq_ok_iff.2 ⟨span, hroot⟩))
      have hrole : a.HasRole .declaration d' := (List.forall₂_cons.1 (htree.roles hd')).1
      obtain rfl := List.mem_singleton.1 hmem
      obtain ⟨b, hb⟩ := hrole.isDeclaration.of_below hx
      cases hk.symm.trans hb
  · exact absurd hk (hrest r hr id d hbelow)

/-- Only functions have children that declare. -/
theorem Complete.declared (h : a.Complete u) (hu : a.unit? = some u) {d p : NodeId} {k : NodeKind}
    (hk : a.kind id = .ok (.declare d)) (hp : a.kind p = .ok k) (hmem : id ∈ k.children) :
    ∃ f, k = .function f ∧ id ∈ f.body := by
  obtain ⟨g, f, hf, hbody⟩ := h.exists_function hu hk
  obtain rfl : p = g := h.parent_unique hu hp hf hmem (List.mem_append_right _ hbody)
  cases hp.symm.trans hf
  exact ⟨f, rfl, hbody⟩

/-- The nodes of a complete program fit if branches and loop bodies are blocks. -/
theorem Complete.fitting (h : a.Complete u) (hu : a.unit? = some u) {k : NodeKind}
    (hk : a.kind id = .ok k) (hbraces : a.Braces k) : a.Fitting k := by
  obtain ⟨span, hroot⟩ := node_root_of_unit? hu
  have kind : a.kind NodeId.root = .ok (.unit u) := kind_eq_ok_iff.2 ⟨span, hroot⟩
  by_cases hid : id = NodeId.root
  · subst hid
    cases kind.symm.trans hk
    exact ⟨fun g hg => (h.layout.globals g hg).1, fun r hr => (h.layout.records r hr).1,
      fun f hf => (h.layout.function_tree hf).1⟩
  obtain ⟨m, hm, hbelow, start, -, htree⟩ := (h.exists_tree_of_kind hk).resolve_left hid
  have hshaped := htree.shaped hk
  cases k with
  | branch | loop => exact hbraces
  | field | element | assign | callStatement => exact hshaped
  | declare d =>
    have hrole : a.HasRole .declaration d := (List.forall₂_cons.1 (htree.roles hk)).1
    exact hrole.isDeclaration
  | record r => exact fun d hd => htree.isDeclaration_field hk hd
  | block body =>
    intro s hs d hd
    obtain ⟨f, hf, -⟩ := h.declared hu hd hk hs
    cases hf
  | function f =>
    obtain ⟨locals, rest, hbody, hlocals, hrest⟩ := h.localsFirst id (h.mem_functions hu hk) f hk
    exact ⟨fun d hd => htree.isDeclaration_param hk hd, locals, rest, hbody, hlocals,
      fun s hs d => hrest s hs s d (.self s)⟩
  | unit v =>
    rcases h.kind_member (h.mem_members hk rfl hid) with ⟨_, hb⟩ | ⟨_, hr⟩ | ⟨-, _, hf⟩
    · cases hk.symm.trans hb
    · cases hk.symm.trans hr
    · cases hk.symm.trans hf
  | _ => trivial

end Arena

/-- Parsing builds well-formed arenas. -/
theorem Program.wellFormed_ofProgram {tokens : List Token} {p : Program}
    (hparse : Program.parse tokens = .ok p) : (Arena.ofProgram p).WellFormed := by
  have hprintable := Program.printable_of_parse hparse
  obtain ⟨u, hu, h⟩ := Arena.exists_complete_ofProgram hprintable.shaped
  have hnodup : u.members.Nodup := Arena.unit?_ofProgram hu ▸
    (Flatten.nodup_members hprintable.shaped _).1
  obtain ⟨span, hroot⟩ := Arena.node_root_of_unit? hu
  have kind : (Arena.ofProgram p).kind NodeId.root = .ok (.unit u) :=
    Arena.kind_eq_ok_iff.2 ⟨span, hroot⟩
  have hmember : ∀ {id k}, (Arena.ofProgram p).kind id = .ok k → k.role = .member →
      id ≠ NodeId.root → (∃ r, k = .record r) ∨ ∃ f, k = .function f := by
    intro id k hk hrole hid
    rcases h.kind_member (h.mem_members hk hrole hid) with ⟨_, hb⟩ | ⟨r, hr⟩ | ⟨-, f, hf⟩
    · cases hk.symm.trans hb
      cases hrole
    · cases hk.symm.trans hr
      exact .inl ⟨r, rfl⟩
    · cases hk.symm.trans hf
      exact .inr ⟨f, rfl⟩
  refine ⟨⟨u, kind⟩, fun id v hv => ?_, fun id hdummy => ?_, fun id hlo hhi => ?_,
    h.exists_walk hu hnodup, fun id k hk => ?_, fun id d q k hk hq => h.declared hu hk hq⟩
  · by_contra hid
    rcases hmember hv rfl hid with ⟨_, hr⟩ | ⟨_, hf⟩
    · cases hr
    · cases hf
  · have hid : id ≠ NodeId.root := by
      rintro rfl
      cases kind.symm.trans hdummy
    rcases hmember hdummy rfl hid with ⟨_, hr⟩ | ⟨_, hf⟩
    · cases hr
    · cases hf
  · obtain ⟨k, hk⟩ := Arena.exists_kind_of_le (Nat.le_of_lt hlo) hhi
    obtain ⟨q, kq, hq, hcount, hlt⟩ := h.exists_parent hu hnodup hk (Nat.ne_of_gt hlo)
    exact ⟨q, kq, hq, hcount, hlt, fun q' kq' hq' hmem => h.parent_unique hu hq' hq hmem
      (List.count_pos_iff.1 (by omega))⟩
  · by_cases hid : id = NodeId.root
    · subst hid
      cases kind.symm.trans hk
      exact h.fitting hu hk trivial
    · obtain ⟨s, hn⟩ := Arena.kind_eq_ok_iff.1 hk
      exact h.fitting hu hk ((Flatten.braces_members hprintable.plain _).ofProgram hn hid)

/-- A program with members of all kinds, in which every statement has a part. -/
theorem Grouping.wellFormed_arena :
    Program.parse tokens = .ok program ∧ (Arena.ofProgram program).WellFormed := by
  have hparse : Program.parse tokens = .ok program := Outcome.ok_get_toOption _
  exact ⟨hparse, Program.wellFormed_ofProgram hparse⟩

end MiniJ
