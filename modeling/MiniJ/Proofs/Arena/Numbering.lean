import MiniJ.Arena.Flatten
import MiniJ.Proofs.Tree.Shape

/-!
# Numbering makes trees

`Arena.ofProgram` lays every member of a shaped program out as a tree that fills the numbers from
the end of the member before it.

## Main statements

* `Arena.exists_layout_ofProgram` — the unit of a parsed program and the trees of its members.
-/
namespace MiniJ

namespace Flatten

/-- The arena has the nodes of `nodes` from position `lo` on. -/
def Holds (a : Arena) (lo : Nat) (nodes : Array Node) : Prop :=
  ∀ i, lo ≤ i → i < nodes.size → a.nodes[i]? = nodes[i]?

/-- A step adds nodes behind the others. -/
def Extends (old new : Array Node) : Prop :=
  old.size ≤ new.size ∧ ∀ i, i < old.size → new[i]? = old[i]?

theorem Extends.refl (nodes : Array Node) : Extends nodes nodes := ⟨Nat.le_refl _, fun _ _ => rfl⟩

theorem Extends.trans {x y z : Array Node} (h : Extends x y) (h' : Extends y z) : Extends x z :=
  ⟨Nat.le_trans h.1 h'.1, fun i hi => (h'.2 i (Nat.lt_of_lt_of_le hi h.1)).trans (h.2 i hi)⟩

theorem extends_push (nodes : Array Node) (n : Node) : Extends nodes (nodes.push n) := by
  refine ⟨by simp, fun i hi => ?_⟩
  rw [Array.getElem?_push_lt hi, Array.getElem?_eq_getElem hi]

theorem Holds.mono {a : Arena} {lo lo' : Nat} {nodes : Array Node} (h : Holds a lo nodes)
    (hlo : lo ≤ lo') : Holds a lo' nodes := fun i hi => h i (Nat.le_trans hlo hi)

theorem Holds.of_extends {a : Arena} {lo : Nat} {old new : Array Node} (h : Holds a lo new)
    (he : Extends old new) : Holds a lo old := by
  intro i hlo hi
  rw [h i hlo (Nat.lt_of_lt_of_le hi he.1), he.2 i hi]

/-- The node that was added last. -/
theorem Holds.kind_last {a : Arena} {lo : Nat} {nodes : Array Node} {k : NodeKind} {s : Span}
    (h : Holds a lo (nodes.push ⟨k, s⟩)) (hlo : lo ≤ nodes.size) :
    a.kind (nodes.size + 1) = .ok k := by
  rw [Arena.kind_eq_ok_iff]
  refine ⟨s, Arena.node_eq_ok_iff.2 ?_⟩
  simpa [Arena.node?] using h nodes.size hlo (by simp)

/-- The result of numbering a subtree: it is a tree behind the nodes that were there. -/
structure Numbered (old : Array Node) (id : Nat) (new : Array Node) : Prop where
  grows : Extends old new
  last : id = new.size
  tree : ∀ a, Holds a old.size new → a.Tree old.size id

/-- The subtree has a role. -/
structure NumberedPart (role : Role) (old : Array Node) (id : Nat) (new : Array Node) : Prop
    extends Numbered old id new where
  part : ∀ a, Holds a old.size new → a.HasRole role id

/-- The same for a list of subtrees. -/
structure NumberedAll (roles : List Role) (old : Array Node) (ids : List Nat) (new : Array Node) :
    Prop where
  grows : Extends old new
  trees : ∀ a, Holds a old.size new → ∃ parts : List (Nat × Nat), parts.map Prod.fst = ids ∧
    Arena.Tiles old.size parts (new.size + 1) ∧ ∀ p ∈ parts, a.Tree p.2 p.1
  roles : ∀ a, Holds a old.size new → List.Forall₂ a.HasRole roles ids

theorem NumberedAll.nil (nodes : Array Node) : NumberedAll [] nodes [] nodes :=
  ⟨.refl _, fun _ _ => ⟨[], rfl, rfl, by simp⟩, fun _ _ => .nil⟩

theorem NumberedAll.cons {role : Role} {roles : List Role} {x y z : Array Node} {id : Nat}
    {ids : List Nat} (h : NumberedPart role x id y) (h' : NumberedAll roles y ids z) :
    NumberedAll (role :: roles) x (id :: ids) z := by
  refine ⟨h.grows.trans h'.grows, fun a ha => ?_, fun a ha => ?_⟩
  · obtain ⟨parts, rfl, htiles, htrees⟩ := h'.trees a (ha.mono h.grows.1)
    refine ⟨(id, x.size) :: parts, rfl, ⟨rfl, h.last ▸ htiles⟩, fun p hp => ?_⟩
    rcases List.mem_cons.1 hp with rfl | hp
    · exact h.tree a (ha.of_extends h'.grows)
    · exact htrees p hp
  · exact .cons (h.part a (ha.of_extends h'.grows)) (h'.roles a (ha.mono h.grows.1))

theorem NumberedAll.append {roles roles' : List Role} {x y z : Array Node} {ids ids' : List Nat}
    (h : NumberedAll roles x ids y) (h' : NumberedAll roles' y ids' z) :
    NumberedAll (roles ++ roles') x (ids ++ ids') z := by
  refine ⟨h.grows.trans h'.grows, fun a ha => ?_, fun a ha => ?_⟩
  · obtain ⟨front, rfl, hfront, htrees⟩ := h.trees a (ha.of_extends h'.grows)
    obtain ⟨back, rfl, hback, htrees'⟩ := h'.trees a (ha.mono h.grows.1)
    refine ⟨front ++ back, by simp, hfront.appended hback, fun p hp => ?_⟩
    rcases List.mem_append.1 hp with hp | hp
    · exact htrees p hp
    · exact htrees' p hp
  · exact List.rel_append (h.roles a (ha.of_extends h'.grows)) (h'.roles a (ha.mono h.grows.1))

/-- A node behind the subtrees of its children. -/
theorem NumberedAll.push {roles : List Role} {x y : Array Node} {ids : List Nat}
    (h : NumberedAll roles x ids y) {k : NodeKind} {s : Span} (parts : k.partRoles = roles)
    (children : k.children = ids) (shaped : ∀ a, Holds a x.size y → a.WellShaped k) :
    Numbered x (Flatten.push k s y).1 (Flatten.push k s y).2 := by
  subst parts children
  refine ⟨h.grows.trans (extends_push _ _), by simp [Flatten.push], fun a ha => ?_⟩
  have hy := ha.of_extends (extends_push _ _)
  obtain ⟨parts, hparts, htiles, htrees⟩ := h.trees a hy
  exact .node parts (ha.kind_last h.grows.1) (shaped a hy) hparts htiles (h.roles a hy) htrees

theorem NumberedAll.pushPart {roles : List Role} {x y : Array Node} {ids : List Nat}
    (h : NumberedAll roles x ids y) {role : Role} {k : NodeKind} {s : Span}
    (parts : k.partRoles = roles) (children : k.children = ids)
    (shaped : ∀ a, Holds a x.size y → a.WellShaped k) (part : k.role = role) :
    NumberedPart role x (Flatten.push k s y).1 (Flatten.push k s y).2 :=
  ⟨h.push parts children shaped, fun _ ha => ⟨k, ha.kind_last h.grows.1, part⟩⟩

theorem NumberedAll.single {role : Role} {x y : Array Node} {id : Nat}
    (h : NumberedPart role x id y) : NumberedAll [role] x [id] y := .cons h (.nil y)

/-! ### Expressions -/

/-- Numbering an expression also keeps what it is. -/
structure NumberedExpr (e : Expr) (old : Array Node) (id : Nat) (new : Array Node) : Prop
    extends NumberedPart .expression old id new where
  place : e.IsPlace → ∀ a, Holds a old.size new → a.IsPlace id
  call : ∀ s name args, e = .call s name args → ∀ a, Holds a old.size new →
    ∃ ids, a.kind id = .ok (.call name ids)

theorem NumberedAll.pushExpr {roles : List Role} {x y : Array Node} {ids : List Nat}
    (h : NumberedAll roles x ids y) {e : Expr} {k : NodeKind} {s : Span}
    (parts : k.partRoles = roles) (children : k.children = ids)
    (shaped : ∀ a, Holds a x.size y → a.WellShaped k) (role : k.role = .expression)
    (place : e.IsPlace → k.isPlace = true)
    (call : ∀ s name args, e = .call s name args → ∃ ids, k = .call name ids) :
    NumberedExpr e x (Flatten.push k s y).1 (Flatten.push k s y).2 := by
  refine ⟨h.pushPart parts children shaped role, fun hp a ha => ?_, fun t name args he a ha => ?_⟩
  · exact ⟨k, ha.kind_last h.grows.1, place hp⟩
  · obtain ⟨ids, rfl⟩ := call t name args he
    exact ⟨ids, ha.kind_last h.grows.1⟩

mutual

theorem numbered_expr {e : Expr} (h : e.Shaped) (nodes : Array Node) :
    NumberedExpr e nodes (expr e nodes).1 (expr e nodes).2 := by
  match e, h with
  | .int .., _ | .text .., _ | .bool .., _ | .var .., _ =>
    exact (NumberedAll.nil nodes).pushExpr rfl rfl (fun _ _ => True.intro) rfl
      (by simp [Expr.IsPlace, NodeKind.isPlace]) (by simp)
  | .field s base name, .field _ _ place shaped =>
    have hb := numbered_expr shaped nodes
    exact (NumberedAll.single hb.toNumberedPart).pushExpr rfl rfl (fun a ha =>
      hb.place place a ha) rfl
      (by simp [NodeKind.isPlace]) (by simp)
  | .element s base index, .element _ place shaped indexShaped =>
    have hb := numbered_expr shaped nodes
    have hi := numbered_expr indexShaped (expr base nodes).2
    exact (NumberedAll.cons hb.toNumberedPart (.single hi.toNumberedPart)).pushExpr rfl rfl
      (fun a ha => hb.place place a (ha.of_extends hi.grows)) rfl (by simp [NodeKind.isPlace])
      (by simp)
  | .unary s op operand, .unary _ _ shaped =>
    exact (NumberedAll.single (numbered_expr shaped nodes).toNumberedPart).pushExpr rfl rfl
      (fun _ _ => True.intro) rfl (by simp [Expr.IsPlace]) (by simp)
  | .binary s op left right, .binary _ _ hl hr =>
    exact (NumberedAll.cons (numbered_expr hl nodes).toNumberedPart
      (.single (numbered_expr hr (expr left nodes).2).toNumberedPart)).pushExpr rfl rfl
      (fun _ _ => True.intro) rfl (by simp [Expr.IsPlace]) (by simp)
  | .call s name args, .call _ _ shaped =>
    exact (numbered_exprs shaped nodes).pushExpr rfl rfl (fun _ _ => True.intro) rfl
      (by simp [Expr.IsPlace]) (by simp)

theorem numbered_exprs {args : List Expr} (h : ∀ e ∈ args, e.Shaped) (nodes : Array Node) :
    NumberedAll ((exprs args nodes).1.map fun _ => .expression) nodes (exprs args nodes).1
      (exprs args nodes).2 := by
  match args, h with
  | [], _ => exact .nil nodes
  | e :: rest, h =>
    exact .cons (numbered_expr (h e (by simp)) nodes).toNumberedPart
      (numbered_exprs (fun e' he => h e' (by simp [he])) _)

end

/-! ### Declarations and statements -/

/-- A declaration as a tree. -/
theorem numbered_declaration {d : Declaration} (h : d.Shaped) (nodes : Array Node) :
    NumberedPart .declaration nodes (declaration d nodes).1 (declaration d nodes).2 :=
  (NumberedAll.nil nodes).pushPart rfl rfl (fun _ _ => h) rfl

theorem numbered_localDeclaration {d : Declaration} (h : d.Shaped ∧ d.isReference = false)
    (nodes : Array Node) :
    NumberedPart .statement nodes (localDeclaration d nodes).1 (localDeclaration d nodes).2 := by
  refine (NumberedAll.single (numbered_declaration h.1 nodes)).pushPart rfl rfl (fun a ha => ?_) rfl
  intro b hb
  have hk := ha.kind_last (Nat.le_refl _)
  cases Except.ok.inj (hk.symm.trans hb)
  exact h.2

mutual

theorem numbered_statement {t : Statement} (h : t.Shaped) (nodes : Array Node) :
    NumberedPart .statement nodes (statement t nodes).1 (statement t nodes).2 := by
  match t, h with
  | .block s body, .block _ shaped =>
    exact (numbered_statements shaped nodes).pushPart rfl rfl (fun _ _ => True.intro) rfl
  | .assign s target value, .assign _ place ht hv =>
    have ht := numbered_expr ht nodes
    have hv := numbered_expr hv (expr target nodes).2
    exact (NumberedAll.cons ht.toNumberedPart (.single hv.toNumberedPart)).pushPart rfl rfl
      (fun a ha => ht.place place a (ha.of_extends hv.grows)) rfl
  | .call s _, .call _ t name shaped =>
    have hc := numbered_expr shaped nodes
    refine (NumberedAll.single hc.toNumberedPart).pushPart rfl rfl (fun a ha => ?_) rfl
    obtain ⟨ids, hk⟩ := hc.call _ _ _ rfl a ha
    exact ⟨name, ids, hk⟩
  | .branch s condition onTrue onFalse, .branch _ hc ht ho =>
    exact (NumberedAll.cons (numbered_expr hc nodes).toNumberedPart
      (.cons (numbered_statement ht _) (numbered_statement? ho _))).pushPart rfl rfl
      (fun _ _ => True.intro) rfl
  | .loop s condition body, .loop _ hc hb =>
    exact (NumberedAll.cons (numbered_expr hc nodes).toNumberedPart
      (.single (numbered_statement hb _))).pushPart rfl rfl (fun _ _ => True.intro) rfl
  | .ret s none, _ =>
    exact (NumberedAll.nil nodes).pushPart rfl rfl (fun _ _ => True.intro) rfl
  | .ret s (some value), .ret _ shaped =>
    exact (NumberedAll.single (numbered_expr (shaped value rfl) nodes).toNumberedPart).pushPart rfl
      rfl (fun _ _ => True.intro) rfl
  | .empty s, _ => exact (NumberedAll.nil nodes).pushPart rfl rfl (fun _ _ => True.intro) rfl

theorem numbered_statement? {t : Option Statement} (h : ∀ s ∈ t, s.Shaped) (nodes : Array Node) :
    NumberedAll ((statement? t nodes).1.toList.map fun _ => .statement) nodes
      (statement? t nodes).1.toList (statement? t nodes).2 := by
  match t, h with
  | none, _ => exact .nil nodes
  | some t, h => exact .single (numbered_statement (h t rfl) nodes)

theorem numbered_statements {body : List Statement} (h : ∀ s ∈ body, s.Shaped)
    (nodes : Array Node) :
    NumberedAll ((statements body nodes).1.map fun _ => .statement) nodes (statements body nodes).1
      (statements body nodes).2 := by
  match body, h with
  | [], _ => exact .nil nodes
  | t :: rest, h =>
    exact .cons (numbered_statement (h t (by simp)) nodes)
      (numbered_statements (fun t' ht => h t' (by simp [ht])) _)

end

/-! ### Members -/

/-- Declarations behind each other. -/
theorem numbered_mapM {role : Role} {f : Declaration → FlattenM NodeId} {ds : List Declaration}
    (h : ∀ d ∈ ds, ∀ nodes, NumberedPart role nodes (f d nodes).1 (f d nodes).2)
    (nodes : Array Node) :
    NumberedAll ((ds.mapM f nodes).1.map fun _ => role) nodes (ds.mapM f nodes).1
      (ds.mapM f nodes).2 := by
  induction ds generalizing nodes with
  | nil => exact .nil nodes
  | cons d ds ih =>
    rw [List.mapM_cons]
    exact .cons (h d (by simp) nodes) (ih (fun d' hd => h d' (by simp [hd])) _)

theorem numbered_record {r : RecordDef} (h : ∀ d ∈ r.fields, d.Shaped) (nodes : Array Node) :
    Numbered nodes (record r nodes).1 (record r nodes).2 :=
  (numbered_mapM (fun d hd => numbered_declaration (h d hd)) nodes).push rfl rfl
    fun _ _ => True.intro

/-- The parts of a function behind each other. -/
theorem numbered_parts {f : FunctionDef} (h : f.Shaped) (nodes : Array Node) :
    let params := f.params.mapM declaration nodes
    let locals := f.locals.mapM localDeclaration params.2
    let body := statements f.body locals.2
    NumberedAll (params.1.map (fun _ => .declaration) ++ (locals.1 ++ body.1).map fun _ =>
      .statement)
      nodes (params.1 ++ (locals.1 ++ body.1)) body.2 := by
  have hp := numbered_mapM (fun d hd => numbered_declaration (h.params d hd)) nodes
  have hl := numbered_mapM (fun d hd => numbered_localDeclaration (h.locals d hd))
    (f.params.mapM declaration nodes).2
  have hb := numbered_statements h.body
    (f.locals.mapM localDeclaration (f.params.mapM declaration nodes).2).2
  have hall := hp.append (hl.append hb)
  rw [← List.map_append] at hall
  exact hall

theorem numbered_function {f : FunctionDef} (h : f.Shaped) (nodes : Array Node) :
    Numbered nodes (function f nodes).1 (function f nodes).2 :=
  (numbered_parts h nodes).push rfl rfl fun _ _ => h.returnType

theorem function_kind {f : FunctionDef} (h : f.Shaped) (nodes : Array Node) {a : Arena}
    (ha : Holds a nodes.size (function f nodes).2) :
    ∃ g, a.kind (function f nodes).1 = .ok (.function g) :=
  ⟨_, ha.kind_last (numbered_parts h nodes).grows.1⟩

theorem ascends_mono {lo lo' : Nat} {parts : List (Nat × Nat)} (h : Arena.Ascends lo parts)
    (hlo : lo' ≤ lo) : Arena.Ascends lo' parts := by
  cases parts with
  | nil => exact True.intro
  | cons p rest => exact ⟨Nat.le_trans hlo h.1, h.2⟩

theorem members_at {ms : List Member} (h : ∀ m ∈ ms, m.Shaped) (nodes : Array Node) :
    Extends nodes (members ms nodes).2 ∧ ∀ a, Holds a nodes.size (members ms nodes).2 →
      a.Layout nodes.size (members ms nodes).1 := by
  induction ms generalizing nodes with
  | nil =>
    have hempty : (members [] nodes).1 = ⟨[], [], []⟩ := rfl
    exact ⟨.refl _, fun a _ => ⟨by simp [hempty], by simp [hempty], [], rfl, True.intro, by simp⟩⟩
  | cons m ms ih =>
    have hrest := fun nodes => ih (fun m' hm => h m' (by simp [hm])) nodes
    have hm := h m (by simp)
    cases m with
    | global d =>
      have hd := numbered_declaration hm nodes
      obtain ⟨hgrows, hmembers⟩ := hrest (declaration d nodes).2
      refine ⟨hd.grows.trans hgrows, fun a ha => ?_⟩
      have hrest := hmembers a (ha.mono hd.grows.1)
      have ha' := ha.of_extends hgrows
      obtain ⟨parts, hparts, hasc, htrees⟩ := hrest.functions
      refine ⟨fun g hg => ?_, hrest.records, parts, hparts, ascends_mono hasc hd.grows.1, htrees⟩
      rcases List.mem_cons.1 hg with rfl | hg
      · exact ⟨(hd.part a ha').isDeclaration, _, hd.tree a ha'⟩
      · exact hrest.globals g hg
    | record r =>
      have hr := numbered_record hm nodes
      obtain ⟨hgrows, hmembers⟩ := hrest (record r nodes).2
      refine ⟨hr.grows.trans hgrows, fun a ha => ?_⟩
      have hrest := hmembers a (ha.mono hr.grows.1)
      have ha' := ha.of_extends hgrows
      obtain ⟨parts, hparts, hasc, htrees⟩ := hrest.functions
      refine ⟨hrest.globals, fun g hg => ?_, parts, hparts, ascends_mono hasc hr.grows.1, htrees⟩
      rcases List.mem_cons.1 hg with rfl | hg
      · exact ⟨⟨_, ha'.kind_last (numbered_mapM (fun d hd => numbered_declaration (hm d hd))
          nodes).grows.1⟩, _, hr.tree a ha'⟩
      · exact hrest.records g hg
    | function f =>
      have hf := numbered_function hm nodes
      obtain ⟨hgrows, hmembers⟩ := hrest (function f nodes).2
      refine ⟨hf.grows.trans hgrows, fun a ha => ?_⟩
      have hrest := hmembers a (ha.mono hf.grows.1)
      have ha' := ha.of_extends hgrows
      obtain ⟨parts, hparts, hasc, htrees⟩ := hrest.functions
      refine ⟨hrest.globals, hrest.records, ((function f nodes).1, nodes.size) :: parts,
        congrArg _ hparts, ⟨Nat.le_refl _, hf.last ▸ hasc⟩, fun p hp => ?_⟩
      rcases List.mem_cons.1 hp with rfl | hp
      · exact ⟨function_kind hm nodes ha', hf.tree a ha'⟩
      · exact htrees p hp

end Flatten

/-- The arena of a shaped program has a unit at its root whose members are trees. -/
theorem Arena.exists_layout_ofProgram {p : Program} (h : p.Shaped) :
    ∃ u, (Arena.ofProgram p).unit? = some u ∧ (Arena.ofProgram p).Layout 1 u := by
  obtain ⟨hgrows, hlayout⟩ := Flatten.members_at h #[⟨.dummy, Span.empty⟩]
  unfold Arena.ofProgram
  generalize Flatten.members p.members #[⟨.dummy, Span.empty⟩] = result at hgrows hlayout ⊢
  obtain ⟨u, nodes⟩ := result
  have hsize : 0 < nodes.size := hgrows.1
  refine ⟨u, ?_, hlayout _ fun i hlo hi => ?_⟩
  · simp [Arena.unit?, NodeId.root, Arena.node?, hsize]
  · have h0 : 0 ≠ i := by
      simp only [List.size_toArray, List.length_cons, List.length_nil] at hlo
      omega
    simp [h0]

end MiniJ
