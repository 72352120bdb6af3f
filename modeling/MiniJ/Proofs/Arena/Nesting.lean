import MiniJ.Proofs.Arena.WellFormed
import MiniJ.Proofs.Token.Partition
import MiniJ.Proofs.Tree.Reach

/-!
# Spans of nodes

Every node of a parsed program has a span that starts and stops with a token, lies inside of the
span of its parent and apart from those of its siblings.

## Main definitions

* `Arena.Framed` — the span of a node holds those of its children, one behind the other.
* `Arena.SpansNest` — the spans of an arena are nested.

## Main statements

* `Arena.spans_nest` — the spans of a parsed program are nested.
-/
namespace MiniJ

variable {source : SourceId} {tokens : List Token} {a : Arena}

namespace Arena

theorem span_eq_ok {id : NodeId} {n : Node} (h : a.node id = .ok n) : a.span id = .ok n.span := by
  rw [Arena.span, h]
  rfl

/-- Nodes with these spans. -/
def HasSpans (a : Arena) : List NodeId → List Span → Prop :=
  List.Forall₂ fun id s => a.span id = .ok s

/-- The span of a node holds the spans of its children, one behind the other. -/
def Framed (source : SourceId) (tokens : List Token) (a : Arena) (n : Node) : Prop :=
  ∃ spans, a.HasSpans n.kind.children spans ∧ n.span.Frames source tokens spans

end Arena

/-! ### Numbering -/

namespace Flatten

variable {x y z : Array Node} {id : NodeId} {ids ids' : List NodeId} {s : Span}
  {spans spans' : List Span}

/-- A step adds a node with some span; all nodes that it adds are framed. -/
structure Spanned (source : SourceId) (tokens : List Token) (a : Arena) (old : Array Node)
    (id : NodeId) (new : Array Node) (s : Span) : Prop where
  provides : Provides a (a.Framed source tokens) old new
  span : Holds a old.size new → a.span id = .ok s

/-- The same for a list of nodes. -/
structure SpannedAll (source : SourceId) (tokens : List Token) (a : Arena) (old : Array Node)
    (ids : List NodeId) (new : Array Node) (spans : List Span) : Prop where
  provides : Provides a (a.Framed source tokens) old new
  spans : Holds a old.size new → a.HasSpans ids spans

theorem SpannedAll.nil (x : Array Node) : SpannedAll source tokens a x [] x [] :=
  ⟨.refl x, fun _ => .nil⟩

theorem SpannedAll.cons (h : Spanned source tokens a x id y s)
    (h' : SpannedAll source tokens a y ids z spans) :
    SpannedAll source tokens a x (id :: ids) z (s :: spans) :=
  ⟨h.provides.trans h'.provides, fun ha => .cons (h.span (ha.of_extends h'.provides.grows))
    (h'.spans (ha.mono h.provides.grows.1))⟩

theorem SpannedAll.append (h : SpannedAll source tokens a x ids y spans)
    (h' : SpannedAll source tokens a y ids' z spans') :
    SpannedAll source tokens a x (ids ++ ids') z (spans ++ spans') :=
  ⟨h.provides.trans h'.provides, fun ha =>
    List.rel_append (h.spans (ha.of_extends h'.provides.grows))
    (h'.spans (ha.mono h.provides.grows.1))⟩

theorem Spanned.single (h : Spanned source tokens a x id y s) :
    SpannedAll source tokens a x [id] y [s] := .cons h (.nil y)

theorem SpannedAll.push {k : NodeKind} (h : SpannedAll source tokens a x ids y spans)
    (children : k.children = ids) (frames : s.Frames source tokens spans) :
    Spanned source tokens a x (push k s y).1 (push k s y).2 s :=
  ⟨h.provides.push fun ha => ⟨spans, children ▸ h.spans ha, frames⟩,
    fun ha => Arena.span_eq_ok (ha.node_last h.provides.grows.1)⟩

theorem SpannedAll.mapM {α : Type} {f : α → FlattenM NodeId} {g : α → Span} {ds : List α}
    (h : ∀ d ∈ ds, ∀ nodes, Spanned source tokens a nodes (f d nodes).1 (f d nodes).2 (g d))
    (nodes : Array Node) :
    SpannedAll source tokens a nodes (ds.mapM f nodes).1 (ds.mapM f nodes).2 (ds.map g) := by
  induction ds generalizing nodes with
  | nil => exact .nil nodes
  | cons d ds ih =>
    rw [List.mapM_cons]
    exact .cons (h d (by simp) nodes) (ih (fun d' hd => h d' (by simp [hd])) _)

mutual

theorem spanned_expr {e : Expr} (h : e.Nested source tokens) (nodes : Array Node) :
    Spanned source tokens a nodes (expr e nodes).1 (expr e nodes).2 e.span := by
  match e, h with
  | .int .., h | .text .., h | .bool .., h | .var .., h =>
    exact (SpannedAll.nil nodes).push rfl h.frames
  | .field _ base _, h =>
    have hbase := spanned_expr (h.parts base (by simp [Expr.parts])) nodes
    exact hbase.single.push rfl h.frames
  | .unary _ _ operand, h =>
    have hoperand := spanned_expr (h.parts operand (by simp [Expr.parts])) nodes
    exact hoperand.single.push rfl h.frames
  | .element _ base index, h =>
    have hbase := spanned_expr (h.parts base (by simp [Expr.parts])) nodes
    have hindex := spanned_expr (h.parts index (by simp [Expr.parts])) (expr base nodes).2
    exact (SpannedAll.cons hbase hindex.single).push rfl h.frames
  | .binary _ _ left right, h =>
    have hleft := spanned_expr (h.parts left (by simp [Expr.parts])) nodes
    have hright := spanned_expr (h.parts right (by simp [Expr.parts])) (expr left nodes).2
    exact (SpannedAll.cons hleft hright.single).push rfl h.frames
  | .call _ _ args, h => exact (spanned_exprs h.parts nodes).push rfl h.frames

theorem spanned_exprs {args : List Expr} (h : ∀ e ∈ args, e.Nested source tokens)
    (nodes : Array Node) :
    SpannedAll source tokens a nodes (exprs args nodes).1 (exprs args nodes).2
      (args.map (·.span)) := by
  match args, h with
  | [], _ => exact .nil nodes
  | e :: rest, h =>
    exact .cons (spanned_expr (h e (by simp)) nodes) (spanned_exprs (fun e' he =>
      h e' (by simp [he])) _)

end

theorem spanned_declaration {d : Declaration} (h : d.Nested source tokens) (nodes : Array Node) :
    Spanned source tokens a nodes (declaration d nodes).1 (declaration d nodes).2 d.span :=
  (SpannedAll.nil nodes).push rfl h.frames

/-- The statement that declares a local has the span of the declaration. -/
theorem spanned_localDeclaration {d : Declaration} (h : d.Nested source tokens)
    (nodes : Array Node) :
    Spanned source tokens a nodes (localDeclaration d nodes).1
      (localDeclaration d nodes).2 d.span :=
  (spanned_declaration h nodes).single.push rfl ⟨h, Nat.le_refl _, Nat.le_refl _⟩

mutual

theorem spanned_statement {t : Statement} (h : t.Nested source tokens) (nodes : Array Node) :
    Spanned source tokens a nodes (statement t nodes).1 (statement t nodes).2 t.span := by
  match t, h with
  | .block _ body, h => exact (spanned_statements h.statements nodes).push rfl h.frames
  | .assign _ target value, h =>
    have htarget := spanned_expr (a := a) (h.exprs target (by simp [Statement.exprs])) nodes
    have hvalue := spanned_expr (a := a) (h.exprs value (by simp [Statement.exprs]))
      (expr target nodes).2
    exact (SpannedAll.cons htarget hvalue.single).push rfl h.frames
  | .call _ callee, h =>
    have hcallee := spanned_expr (a := a) (h.exprs callee (by simp [Statement.exprs])) nodes
    exact hcallee.single.push rfl h.frames
  | .branch _ condition onTrue onFalse, h =>
    have hcondition := spanned_expr (a := a) (h.exprs condition (by simp [Statement.exprs])) nodes
    have htrue := spanned_statement (h.statements onTrue (by simp [Statement.statements]))
      (expr condition nodes).2
    have hfalse := spanned_statement? (t := onFalse)
      (fun s hs => h.statements s (by simp [Statement.statements, Option.mem_def.1 hs]))
      (statement onTrue (expr condition nodes).2).2
    exact (SpannedAll.cons hcondition (.cons htrue hfalse)).push rfl h.frames
  | .loop _ condition body, h =>
    have hcondition := spanned_expr (a := a) (h.exprs condition (by simp [Statement.exprs])) nodes
    have hbody := spanned_statement (h.statements body (by simp [Statement.statements]))
      (expr condition nodes).2
    exact (SpannedAll.cons hcondition hbody.single).push rfl h.frames
  | .ret _ none, h | .empty _, h => exact (SpannedAll.nil nodes).push rfl h.frames
  | .ret _ (some value), h =>
    have hvalue := spanned_expr (a := a) (h.exprs value (by simp [Statement.exprs])) nodes
    exact hvalue.single.push rfl h.frames

theorem spanned_statement? {t : Option Statement} (h : ∀ s ∈ t, s.Nested source tokens)
    (nodes : Array Node) : SpannedAll source tokens a nodes (statement? t nodes).1.toList
      (statement? t nodes).2 (t.toList.map (·.span)) := by
  match t, h with
  | none, _ => exact .nil nodes
  | some t, h => exact (spanned_statement (h t rfl) nodes).single

theorem spanned_statements {body : List Statement} (h : ∀ s ∈ body, s.Nested source tokens)
    (nodes : Array Node) : SpannedAll source tokens a nodes (statements body nodes).1
      (statements body nodes).2 (body.map (·.span)) := by
  match body, h with
  | [], _ => exact .nil nodes
  | t :: rest, h =>
    exact .cons (spanned_statement (h t (by simp)) nodes)
      (spanned_statements (fun t' ht => h t' (by simp [ht])) _)

end

theorem spanned_record {r : RecordDef} (h : r.Nested source tokens) (nodes : Array Node) :
    Spanned source tokens a nodes (record r nodes).1 (record r nodes).2 r.span :=
  (SpannedAll.mapM (fun d hd => spanned_declaration (h.fields d hd)) nodes).push rfl h.frames

theorem spanned_function {f : FunctionDef} (h : f.Nested source tokens) (nodes : Array Node) :
    Spanned source tokens a nodes (function f nodes).1 (function f nodes).2 f.span := by
  have hparams := SpannedAll.mapM (a := a) (fun d hd => spanned_declaration (h.params d hd)) nodes
  have hlocals := SpannedAll.mapM (a := a) (fun d hd => spanned_localDeclaration (h.locals d hd))
    (f.params.mapM declaration nodes).2
  have hbody := spanned_statements (a := a) h.body
    (f.locals.mapM localDeclaration (f.params.mapM declaration nodes).2).2
  refine ((hparams.append hlocals).append hbody).push ?_ h.frames
  exact (List.append_assoc ..).symm

/-- The members in source order. -/
theorem spanned_members {ms : List Member} (h : ∀ m ∈ ms, m.Nested source tokens)
    (nodes : Array Node) :
    ∃ ids, ids.Perm (members ms nodes).1.members ∧
      SpannedAll source tokens a nodes ids (members ms nodes).2 (ms.map (·.span)) := by
  induction ms generalizing nodes with
  | nil => exact ⟨[], .refl _, .nil nodes⟩
  | cons m ms ih =>
    have hm := h m (by simp)
    have hms := ih fun m' hm' => h m' (by simp [hm'])
    cases m with
    | global d =>
      obtain ⟨ids, hperm, hids⟩ := hms (declaration d nodes).2
      exact ⟨_, hperm.cons _, .cons (spanned_declaration hm nodes) hids⟩
    | record r =>
      obtain ⟨ids, hperm, hids⟩ := hms (record r nodes).2
      refine ⟨_, (hperm.cons _).trans ?_, .cons (spanned_record hm nodes) hids⟩
      simp only [UnitNode.members, List.append_assoc]
      exact List.perm_middle.symm
    | function f =>
      obtain ⟨ids, hperm, hids⟩ := hms (function f nodes).2
      exact ⟨_, (hperm.cons _).trans List.perm_middle.symm, .cons (spanned_function hm nodes) hids⟩

end Flatten

/-! ### Tokens -/

/-- The tokens of a scan are ahead of its start. -/
theorem Token.ahead_of_scan {bytes : List UInt8} (hsize : bytes.length ≤ 4194303)
    (hscan : Token.scan source bytes = .ok tokens) : Ahead source tokens 0 tokens := by
  have hsplits := Token.splits_of_scan hsize hscan
  have horigin := Token.settles_scan source bytes
  rw [hscan] at horigin
  have hcut : ∀ t ∈ tokens, t.span.Cut source tokens := by
    intro t ht
    have hfilled := hsplits.filled t ht
    have hinside := hsplits.inside t ht
    exact ⟨(horigin t ht).span.source, ⟨t, ht, rfl⟩, ⟨t, ht, rfl⟩, Nat.lt_add_of_pos_right hfilled,
      by unfold Span.fieldLimit; omega⟩
  suffices h : ∀ (ts : List Token) lo, (∀ t ∈ ts, t.span.Cut source tokens) →
      (ts.Pairwise fun t u => t.span.stop ≤ u.span.offset) → (∀ t ∈ ts, lo ≤ t.span.offset) →
        Ahead source tokens lo ts from
    h tokens 0 hcut hsplits.ordered fun t _ => Nat.zero_le _
  intro ts
  induction ts with
  | nil => exact fun _ _ _ _ => trivial
  | cons t rest ih =>
    intro lo hcut hordered hlo
    rw [List.pairwise_cons] at hordered
    exact ⟨hlo t (by simp), hcut t (by simp),
      ih t.span.stop (fun u hu => hcut u (by simp [hu])) hordered.2 hordered.1⟩

/-! ### Programs -/

namespace Arena

/-- The span of a node stops in front of the span of another one. -/
def Precedes (a : Arena) (c d : NodeId) : Prop :=
  ∃ s t, a.span c = .ok s ∧ a.span d = .ok t ∧ s.stop ≤ t.offset

theorem HasSpans.pairwise {ids : List NodeId} {spans : List Span} {lo hi : Nat}
    (h : a.HasSpans ids spans) (hspans : Span.Arranged lo hi spans) : ids.Pairwise a.Precedes := by
  induction h generalizing lo with
  | nil => exact .nil
  | cons hid hids ih =>
    refine .cons (fun d hd => ?_) (ih hspans.2)
    obtain ⟨t, ht, hspan⟩ := Outcome.exists_of_forall₂_left hids hd
    exact ⟨_, t, hid, hspan, (hspans.2.inside t ht).1⟩

/-- The spans of nodes start and stop with a token, lie inside of those of the parents and apart
from those of the siblings. Except for the members of the program, which are sorted by kind,
siblings are in the order of their spans. -/
structure SpansNest (source : SourceId) (size : Nat) (tokens : List Token) (a : Arena) : Prop where
  /-- The number of the program is carried if it has at most 20 bits. -/
  source : ∀ id n, a.node id = .ok n → 0 < source → source < 1048576 → n.span.source = source
  filled : ∀ id n, a.node id = .ok n → n.span.offset < n.span.stop
  inside : ∀ id n, a.node id = .ok n → n.span.stop ≤ size
  starts : ∀ id n, a.node id = .ok n → ∃ t ∈ tokens, n.span.offset = t.span.offset
  stops : ∀ id n, a.node id = .ok n → ∃ t ∈ tokens, n.span.stop = t.span.stop
  contained : ∀ id n c, a.node id = .ok n → c ∈ n.kind.children →
    ∃ s, a.span c = .ok s ∧ n.span.offset ≤ s.offset ∧ s.stop ≤ n.span.stop
  disjoint : ∀ id n, a.node id = .ok n →
    n.kind.children.Pairwise fun c d => a.Precedes c d ∨ a.Precedes d c
  ordered : ∀ id n, a.node id = .ok n → id ≠ NodeId.root → n.kind.children.Pairwise a.Precedes

/-- A node that is framed, up to the order of its children. -/
structure Enclosing (source : SourceId) (tokens : List Token) (a : Arena) (n : Node) : Prop where
  cut : n.span.Cut source tokens
  contained : ∀ c ∈ n.kind.children, ∃ s, a.span c = .ok s ∧ n.span.offset ≤ s.offset ∧
    s.stop ≤ n.span.stop
  disjoint : n.kind.children.Pairwise fun c d => a.Precedes c d ∨ a.Precedes d c

theorem enclosing_of_perm {n : Node} {ids : List NodeId} {spans : List Span}
    (hids : ids.Perm n.kind.children) (hspans : a.HasSpans ids spans)
    (hframes : n.span.Frames source tokens spans) : Enclosing source tokens a n := by
  refine ⟨hframes.cut, fun c hc => ?_, ?_⟩
  · obtain ⟨s, hs, hspan⟩ := Outcome.exists_of_forall₂_left hspans (hids.mem_iff.2 hc)
    exact ⟨s, hspan, hframes.parts.inside s hs⟩
  · refine (hids.pairwise_iff fun h => h.symm).1 ?_
    exact (hspans.pairwise hframes.parts).imp .inl

theorem Framed.enclosing {n : Node} (h : a.Framed source tokens n) : Enclosing source tokens a n :=
  enclosing_of_perm (.refl _) h.choose_spec.1 h.choose_spec.2

/-- The spans of a parsed program are nested. -/
theorem spans_nest {bytes : List UInt8} {p : Program} (hsize : bytes.length ≤ 4194303)
    (hscan : Token.scan source bytes = .ok tokens) (hne : tokens ≠ [])
    (hparse : Program.parse tokens = .ok p) :
    (Arena.ofProgram p).SpansNest source bytes.length tokens := by
  have hnested := Program.nested_of_parse hne (Token.ahead_of_scan hsize hscan) hparse
  have hsplits := Token.splits_of_scan hsize hscan
  obtain ⟨ids, hids, hspans⟩ := Flatten.spanned_members (a := Arena.ofProgram p) hnested.members
    #[⟨.dummy, Span.empty⟩]
  have hframed : ∀ id n, (Arena.ofProgram p).node id = .ok n → id ≠ NodeId.root →
      (Arena.ofProgram p).Framed source tokens n := fun id n hn hid =>
        hspans.provides.ofProgram hn hid
  have hroot : ∀ n, (Arena.ofProgram p).node NodeId.root = .ok n →
      Enclosing source tokens (Arena.ofProgram p) n := by
    intro n hn
    obtain rfl := node_root_ofProgram hn
    exact enclosing_of_perm hids (hspans.spans (Flatten.holds_ofProgram p)) hnested.frames
  have henclosing : ∀ id n, (Arena.ofProgram p).node id = .ok n →
      Enclosing source tokens (Arena.ofProgram p) n := by
    intro id n hn
    by_cases hid : id = NodeId.root
    · exact hroot n (hid ▸ hn)
    · exact (hframed id n hn hid).enclosing
  refine ⟨fun id n hn hpos hlt => ?_, fun id n hn => (henclosing id n hn).cut.filled,
    fun id n hn => ?_,
    fun id n hn => (henclosing id n hn).cut.starts, fun id n hn => (henclosing id n hn).cut.stops,
    fun id n c hn => (henclosing id n hn).contained c, fun id n hn => (henclosing id n hn).disjoint,
    fun id n hn hid => ?_⟩
  · rw [(henclosing id n hn).cut.source, Span.source_ofRange hpos hlt]
  · obtain ⟨t, ht, hstop⟩ := (henclosing id n hn).cut.stops
    exact hstop ▸ hsplits.inside t ht
  · obtain ⟨spans, hspans, hframes⟩ := hframed id n hn hid
    exact hspans.pairwise hframes.parts

end Arena

/-- Parentheses that belong to no span, lone statements, operators on both sides of operands. -/
theorem Grouping.spans_nested :
    bytes.length ≤ 4194303 ∧ Token.scan 2 bytes = .ok Grouping.tokens ∧ Grouping.tokens ≠ [] ∧
      Program.parse Grouping.tokens = .ok program ∧
      (Arena.ofProgram program).SpansNest 2 bytes.length Grouping.tokens := by
  have hsize : bytes.length ≤ 4194303 := by decide +kernel
  have hscan : Token.scan 2 bytes = .ok Grouping.tokens := Outcome.ok_get_toOption _
  have hne : Grouping.tokens ≠ [] := by decide +kernel
  have hparse : Program.parse Grouping.tokens = .ok program := Outcome.ok_get_toOption _
  exact ⟨hsize, hscan, hne, hparse, Arena.spans_nest hsize hscan hne hparse⟩

namespace Grouping

/-- The tokens of the same text as program 1048576. -/
def farTokens : List Token := (Token.scan 1048576 bytes).toOption.get (by decide +kernel)

def farProgram : Program := (Program.parse farTokens).toOption.get (by decide +kernel)

def farRoot : Node :=
  ((Arena.ofProgram farProgram).node NodeId.root).toOption.get (by decide +kernel)

/-- A number of more than 20 bits is cut: here to 1, which no program has. -/
theorem source_cut : bytes.length ≤ 4194303 ∧ Token.scan 1048576 bytes = .ok farTokens ∧
    farTokens ≠ [] ∧ Program.parse farTokens = .ok farProgram ∧
    (Arena.ofProgram farProgram).node NodeId.root = .ok farRoot ∧ farRoot.span.source = 1 :=
  ⟨by decide +kernel, Outcome.ok_get_toOption _, by decide +kernel, Outcome.ok_get_toOption _,
    Outcome.ok_get_toOption _, by decide +kernel⟩

end Grouping

end MiniJ
