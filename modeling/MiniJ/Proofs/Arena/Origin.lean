import MiniJ.Compilation
import MiniJ.Proofs.Arena.Tree
import MiniJ.Proofs.Tree.Origin
import MiniJ.Proofs.Tree.Parsing

/-!
# Where nodes come from

Numbering a program keeps names and spans, so the nodes of an arena come from the tokens of the
program it was read from.

## Main statements

* `Arena.settles_ofBytes` — the nodes of a program that is read, and the error of one that is not.
-/
namespace MiniJ

open Outcome Text

variable {o : Origin}

/-- The names in a node. -/
def NodeKind.From (o : Origin) : NodeKind → Prop
  | .var name | .field _ name | .call name _ => o.name name
  | .declaration b => o.name b.name ∧ b.ty.From o
  | .function f => o.name f.name ∧ f.returnType.From o
  | .record r => o.name r.name
  | _ => True

structure Node.From (o : Origin) (n : Node) : Prop where
  span : o.span n.span
  kind : n.kind.From o

/-- All nodes have an origin. -/
def Arena.From (o : Origin) (a : Arena) : Prop := ∀ n ∈ a.nodes, n.From o

namespace Flatten

variable {α β : Type}

/-- All nodes have an origin, apart from the one that is kept free for the root. -/
def Fills (o : Origin) (nodes : Array Node) : Prop := ∀ i n, nodes[i + 1]? = some n → n.From o

/-- Adding nodes keeps the origin. -/
def KeepsOrigin (o : Origin) (x : FlattenM α) : Prop := ∀ nodes, Fills o nodes → Fills o (x nodes).2

namespace KeepsOrigin

theorem pure (v : α) : KeepsOrigin o (pure v : FlattenM α) := fun _ h => h

theorem bind {x : FlattenM α} {f : α → FlattenM β} (hx : KeepsOrigin o x)
    (hf : ∀ v, KeepsOrigin o (f v)) :
    KeepsOrigin o (x >>= f) := fun nodes h => hf _ _ (hx nodes h)

theorem push {kind : NodeKind} {span : Span} (hspan : o.span span) (hkind : kind.From o) :
    KeepsOrigin o (push kind span) := by
  intro nodes h i n hn
  change (nodes.push ⟨kind, span⟩)[i + 1]? = some n at hn
  rw [Array.getElem?_push] at hn
  split at hn
  · cases hn
    exact ⟨hspan, hkind⟩
  · exact h i n hn

theorem mapM {f : α → FlattenM β} {xs : List α} (h : ∀ x ∈ xs, KeepsOrigin o (f x)) :
    KeepsOrigin o (xs.mapM f) := by
  induction xs with
  | nil => exact pure []
  | cons x xs ih =>
    rw [List.mapM_cons]
    exact (h x (by simp)).bind fun y => (ih fun z hz => h z (by simp [hz])).bind fun ys =>
      pure (y :: ys)

end KeepsOrigin

mutual

theorem keeps_expr {e : Expr} (h : e.From o) : KeepsOrigin o (expr e) := by
  cases h with
  | int value span | text value span | bool value span =>
    rw [expr]
    exact .push span trivial
  | var span name =>
    rw [expr]
    exact .push span name
  | field span name part =>
    rw [expr]
    exact (keeps_expr part).bind fun _ => .push span name
  | element span part part' | binary _ span part part' =>
    rw [expr]
    exact (keeps_expr part).bind fun _ => (keeps_expr part').bind fun _ => .push span trivial
  | unary op span part =>
    rw [expr]
    exact (keeps_expr part).bind fun _ => .push span trivial
  | call span name parts =>
    rw [expr]
    exact (keeps_exprs parts).bind fun _ => .push span name

theorem keeps_exprs {es : List Expr} (h : ∀ e ∈ es, e.From o) : KeepsOrigin o (exprs es) := by
  cases es with
  | nil => exact .pure []
  | cons e rest =>
    rw [exprs]
    exact (keeps_expr (h e (by simp))).bind fun _ => (keeps_exprs fun e' he' =>
      h e' (by simp [he'])).bind
      fun _ => .pure _

end

theorem keeps_declaration {d : Declaration} (h : d.From o) : KeepsOrigin o (declaration d) :=
  .push h.span ⟨h.name, h.ty⟩

theorem keeps_localDeclaration {d : Declaration} (h : d.From o) :
    KeepsOrigin o (localDeclaration d) :=
  (keeps_declaration h).bind fun _ => .push h.span trivial

mutual

theorem keeps_statement {s : Statement} (h : s.From o) : KeepsOrigin o (statement s) := by
  cases h with
  | block span parts =>
    rw [statement]
    exact (keeps_statements parts).bind fun _ => .push span trivial
  | assign span part part' =>
    rw [statement]
    exact (keeps_expr part).bind fun _ => (keeps_expr part').bind fun _ => .push span trivial
  | call span part =>
    rw [statement]
    exact (keeps_expr part).bind fun _ => .push span trivial
  | branch span test part part' =>
    rw [statement]
    exact (keeps_expr test).bind fun _ => (keeps_statement part).bind fun _ =>
      (keeps_statement? part').bind fun _ => .push span trivial
  | loop span test part =>
    rw [statement]
    exact (keeps_expr test).bind fun _ => (keeps_statement part).bind fun _ => .push span trivial
  | @ret s value span parts =>
    cases value with
    | none =>
      rw [statement]
      exact .push span trivial
    | some e =>
      rw [statement]
      exact (keeps_expr (parts e rfl)).bind fun _ => .push span trivial
  | empty span =>
    rw [statement]
    exact .push span trivial

theorem keeps_statement? {s : Option Statement} (h : ∀ t ∈ s, t.From o) :
    KeepsOrigin o (statement? s) := by
  cases s with
  | none => exact .pure none
  | some s =>
    rw [statement?]
    exact (keeps_statement (h s rfl)).bind fun _ => .pure _

theorem keeps_statements {ss : List Statement} (h : ∀ s ∈ ss, s.From o) :
    KeepsOrigin o (statements ss) := by
  cases ss with
  | nil => exact .pure []
  | cons s rest =>
    rw [statements]
    exact (keeps_statement (h s (by simp))).bind fun _ =>
      (keeps_statements fun t ht => h t (by simp [ht])).bind fun _ => .pure _

end

theorem keeps_record {r : RecordDef} (h : r.From o) : KeepsOrigin o (record r) :=
  (KeepsOrigin.mapM fun d hd => keeps_declaration (h.fields d hd)).bind fun _ => .push h.span h.name

theorem keeps_function {f : FunctionDef} (h : f.From o) : KeepsOrigin o (function f) :=
  (KeepsOrigin.mapM fun d hd => keeps_declaration (h.params d hd)).bind fun _ =>
    (KeepsOrigin.mapM fun d hd => keeps_localDeclaration (h.locals d hd)).bind fun _ =>
      (keeps_statements h.body).bind fun _ => .push h.span ⟨h.name, h.returnType⟩

theorem keeps_members {ms : List Member} (h : ∀ m ∈ ms, m.From o) : KeepsOrigin o (members ms) := by
  induction ms with
  | nil => exact .pure _
  | cons m rest ih =>
    have hfirst := h m (by simp)
    have hrest := ih fun m' hm' => h m' (by simp [hm'])
    cases m with
    | global d => exact (keeps_declaration hfirst).bind fun _ => hrest.bind fun _ => .pure _
    | record r => exact (keeps_record hfirst).bind fun _ => hrest.bind fun _ => .pure _
    | function f => exact (keeps_function hfirst).bind fun _ => hrest.bind fun _ => .pure _

end Flatten

namespace Arena

theorem from_ofProgram {p : Program} (h : p.From o) : (ofProgram p).From o := by
  have hfills := Flatten.keeps_members h.members #[⟨.dummy, Span.empty⟩]
    (by intro i n hn; simp at hn)
  intro n hn
  obtain ⟨i, hi⟩ := Array.mem_iff_getElem?.1 hn
  change (((Flatten.members p.members) #[⟨.dummy, Span.empty⟩]).2.setIfInBounds 0 _)[i]? =
    some n at hi
  rw [Array.getElem?_setIfInBounds] at hi
  cases i with
  | zero =>
    rw [if_pos rfl] at hi
    split at hi
    · cases hi
      exact ⟨h.span, trivial⟩
    · cases hi
  | succ i =>
    rw [if_neg (by simp)] at hi
    exact hfills i n hi

variable {a : Arena} {id : NodeId}

theorem From.node {n : Node} (h : a.From o) (hn : a.node id = .ok n) : n.From o := by
  refine h n ?_
  obtain ⟨i, rfl⟩ : ∃ i, id = i + 1 := by
    cases id with
    | zero => cases hn
    | succ i => exact ⟨i, rfl⟩
  unfold Arena.node Arena.node? at hn
  dsimp only at hn
  split at hn
  · next hget =>
    cases hn
    exact Array.mem_of_getElem? hget
  · cases hn

theorem From.kind {k : NodeKind} (h : a.From o) (hk : a.kind id = .ok k) : k.From o := by
  obtain ⟨span, hn⟩ := kind_eq_ok_iff.1 hk
  exact (h.node hn).kind

/-- The arena of a program without tokens. -/
def vacant : Arena := ofProgram ⟨Span.empty, []⟩

/-- A program that is read has nodes that come from its bytes, or no tokens at all. One that is not
read is reported, and the error is about one of its bytes. -/
theorem settles_ofBytes (source : SourceId) (bytes : List UInt8) :
    Settles (ofBytes source bytes) (fun a => a = vacant ∨ a.From (.program source bytes.length))
      (fun failure => ∃ e, failure = .reported e ∧ ParseError.Located source bytes.length e) := by
  refine ((Token.settles_scan source bytes).mapError fun e he => ⟨e, rfl, he⟩).bind
    fun tokens htokens => ?_
  by_cases hne : tokens = []
  · subst hne
    exact .inl rfl
  · have hparse := Program.settles_parse hne htokens
    cases hprogram : Program.parse tokens with
    | error failure =>
      rw [hprogram] at hparse
      cases failure with
      | reported e => exact ⟨e, rfl, hparse.span, hparse.isLine⟩
      | fault fault => exact absurd hprogram (Program.parse_ne_fault tokens fault)
    | ok p =>
      rw [hprogram] at hparse
      exact .inr (from_ofProgram hparse)

end Arena

end MiniJ
