import MiniJ.Proofs.Binding.Sound
import MiniJ.Semantic.Typing

/-!
# Typing

When the annotations of a program are right: every expression has the type its parts give it, every
call goes to an overload that takes its arguments, and every statement fits its function.

## Main definitions

* `Arena.Typed` — an expression has a type.
* `Arena.Checked` — a statement is well typed in a function with a given return type.
-/
namespace MiniJ

/-- The record a type is built on is declared. -/
def SymbolTable.Knows (table : SymbolTable) (ty : Ty) : Prop :=
  ∀ name, ty.base = .record name → ∃ fields, table.lookupRecord name = .ok (some fields)

/-- Two annotations agree on the nodes above `lo` up to `id`. -/
structure SemanticInfo.Agree (lo id : Nat) (info info' : SemanticInfo) : Prop where
  resolved : info'.resolved = info.resolved
  types : ∀ i, lo < i → i ≤ id → info'.typeOf i = info.typeOf i
  targets : ∀ i, lo < i → i ≤ id → info'.callTarget i = info.callTarget i

theorem SemanticInfo.Agree.mono {lo lo' id id' : Nat} {info info' : SemanticInfo}
    (h : Agree lo id info info') (hlo : lo ≤ lo') (hid : id' ≤ id) : Agree lo' id' info info' :=
  ⟨h.resolved, fun i hl hi => h.types i (by omega) (by omega),
    fun i hl hi => h.targets i (by omega) (by omega)⟩

namespace Arena

/-- An expression has a type, which its annotation repeats. -/
inductive Typed (a : Arena) (u : UnitNode) (table : SymbolTable) (info : SemanticInfo) :
    Nat → Ty → Prop
  | int {id v} (kind : a.kind id = .ok (.int v)) (noted : info.typeOf id = some .int) :
      Typed a u table info id .int
  | text {id v} (kind : a.kind id = .ok (.text v)) (noted : info.typeOf id = some .text) :
      Typed a u table info id .text
  | bool {id v} (kind : a.kind id = .ok (.bool v)) (noted : info.typeOf id = some .bool) :
      Typed a u table info id .bool
  | var {id name e x ty ref cls d} (kind : a.kind id = .ok (.var name))
      (resolved : info.resolvedEntry id = some e) (entry : table.entry e = .ok x)
      (meaning : x.meaning = .var ty ref cls d) (noted : info.typeOf id = some ty) :
      Typed a u table info id ty
  | field {id base name record fields f} (kind : a.kind id = .ok (.field base name))
      (part : Typed a u table info base (.record record))
      (lookup : table.lookupRecord record = .ok (some fields))
      (found : fields.find? (·.name == name) = some f) (noted : info.typeOf id = some f.ty) :
      Typed a u table info id f.ty
  | element {id base index ty} (kind : a.kind id = .ok (.element base index))
      (array : Typed a u table info base (.array ty)) (position : Typed a u table info index .int)
      (noted : info.typeOf id = some ty) : Typed a u table info id ty
  | unary {id op operand inner ty} (kind : a.kind id = .ok (.unary op operand))
      (part : Typed a u table info operand inner) (result : op.result? inner = some ty)
      (place : op.isStep = true → a.IsPlace operand) (noted : info.typeOf id = some ty) :
      Typed a u table info id ty
  | binary {id op left right l r ty} (kind : a.kind id = .ok (.binary op left right))
      (first : Typed a u table info left l) (second : Typed a u table info right r)
      (result : op.result? l r = some ty) (noted : info.typeOf id = some ty) :
      Typed a u table info id ty
  | call {id name args sig} (kind : a.kind id = .ok (.call name args))
      (signature : sig.Describes a u name) (arity : args.length = sig.params.length)
      (target : info.callTarget id = some (Typing.target name sig))
      (typed : ∀ p ∈ args.zip sig.params, Typed a u table info p.1 p.2.ty)
      (places : ∀ p ∈ args.zip sig.params, p.2.isReference = true → a.IsPlace p.1)
      (noted : info.typeOf id = some sig.returnType) : Typed a u table info id sig.returnType

/-- A statement is well typed in a function that returns `ret`. -/
inductive Checked (a : Arena) (u : UnitNode) (table : SymbolTable) (info : SemanticInfo)
    (ret : Ty) : Nat → Prop
  | block {id body} (kind : a.kind id = .ok (.block body))
      (parts : ∀ x ∈ body, Checked a u table info ret x) : Checked a u table info ret id
  | declare {id d b} (kind : a.kind id = .ok (.declare d))
      (declaration : a.kind d = .ok (.declaration b)) (known : table.Knows b.ty) :
      Checked a u table info ret id
  | assign {id target value ty} (kind : a.kind id = .ok (.assign target value))
      (place : Typed a u table info target ty) (typed : Typed a u table info value ty) :
      Checked a u table info ret id
  | callStatement {id c ty} (kind : a.kind id = .ok (.callStatement c))
      (call : Typed a u table info c ty) : Checked a u table info ret id
  | branch {id condition onTrue onFalse} (kind : a.kind id = .ok (.branch condition onTrue onFalse))
      (test : Typed a u table info condition .bool)
      (first : Checked a u table info ret onTrue)
      (second : ∀ x ∈ onFalse, Checked a u table info ret x) : Checked a u table info ret id
  | loop {id condition body} (kind : a.kind id = .ok (.loop condition body))
      (test : Typed a u table info condition .bool) (inner : Checked a u table info ret body) :
      Checked a u table info ret id
  | ret {id value} (kind : a.kind id = .ok (.ret value))
      (typed : ∀ v ∈ value, Typed a u table info v ret) (void : value = none → ret = .void) :
      Checked a u table info ret id
  | empty {id} (kind : a.kind id = .ok .empty) : Checked a u table info ret id

/-- A declaration node declares a variable of a known type. -/
def KnownDeclaration (a : Arena) (table : SymbolTable) (d : Nat) : Prop :=
  ∀ b, a.kind d = .ok (.declaration b) → table.Knows b.ty

/-- A function is well typed. -/
structure WellTypedFunction (a : Arena) (u : UnitNode) (table : SymbolTable) (info : SemanticInfo)
    (f : FunctionNode) : Prop where
  result : table.Knows f.returnType
  params : ∀ p ∈ f.params, a.KnownDeclaration table p
  body : ∀ r ∈ f.body, a.Checked u table info f.returnType r

/-- A program is well typed. -/
structure WellTyped (a : Arena) (u : UnitNode) (table : SymbolTable) (info : SemanticInfo) :
    Prop where
  globals : ∀ g ∈ u.globals, a.KnownDeclaration table g
  records : ∀ id ∈ u.records, ∀ r, a.kind id = .ok (.record r) →
    ∀ d ∈ r.fields, a.KnownDeclaration table d
  functions : ∀ id ∈ u.functions, ∀ f, a.kind id = .ok (.function f) →
    a.WellTypedFunction u table info f

variable {a : Arena} {u : UnitNode} {table : SymbolTable} {info info' : SemanticInfo}

theorem Tree.agree_child {lo id c : Nat} {k : NodeKind} (ht : a.Tree lo id)
    (hagree : SemanticInfo.Agree lo id info info') (hk : a.kind id = .ok k) (hc : c ∈ k.children) :
    ∃ start, a.Tree start c ∧ SemanticInfo.Agree start c info info' := by
  obtain ⟨start, hstart, hlo, hid⟩ := ht.child hk hc
  exact ⟨start, hstart, hagree.mono hlo (by omega)⟩

theorem Typed.noted {id : Nat} {ty : Ty} (h : a.Typed u table info id ty) :
    info.typeOf id = some ty := by
  cases h <;> assumption

/-- Typing depends only on the annotations of the subtree. -/
theorem Typed.stable {lo id : Nat} {ty : Ty} (h : a.Typed u table info id ty) (ht : a.Tree lo id)
    (hagree : SemanticInfo.Agree lo id info info') : a.Typed u table info' id ty := by
  have hself : ∀ {lo id}, a.Tree lo id → SemanticInfo.Agree lo id info info' →
      info'.typeOf id = info.typeOf id := fun ht hagree => hagree.types _ ht.lt (Nat.le_refl _)
  induction h generalizing lo with
  | int kind noted => exact .int kind ((hself ht hagree).trans noted)
  | text kind noted => exact .text kind ((hself ht hagree).trans noted)
  | bool kind noted => exact .bool kind ((hself ht hagree).trans noted)
  | var kind resolved entry meaning noted =>
    refine .var kind ?_ entry meaning ((hself ht hagree).trans noted)
    rw [SemanticInfo.resolvedEntry, hagree.resolved]
    exact resolved
  | field kind part fields found noted ih =>
    obtain ⟨start, hc, hag⟩ := ht.agree_child hagree kind (.head _)
    exact .field kind (ih hc hag) fields found ((hself ht hagree).trans noted)
  | element kind array index noted ih ih' =>
    obtain ⟨start, hc, hag⟩ := ht.agree_child hagree kind (.head _)
    obtain ⟨start', hc', hag'⟩ := ht.agree_child hagree kind (.tail _ (.head _))
    exact .element kind (ih hc hag) (ih' hc' hag') ((hself ht hagree).trans noted)
  | unary kind part result place noted ih =>
    obtain ⟨start, hc, hag⟩ := ht.agree_child hagree kind (.head _)
    exact .unary kind (ih hc hag) result place ((hself ht hagree).trans noted)
  | binary kind left right result noted ih ih' =>
    obtain ⟨start, hc, hag⟩ := ht.agree_child hagree kind (.head _)
    obtain ⟨start', hc', hag'⟩ := ht.agree_child hagree kind (.tail _ (.head _))
    exact .binary kind (ih hc hag) (ih' hc' hag') result ((hself ht hagree).trans noted)
  | call kind signature arity target args places noted ih =>
    refine .call kind signature arity ?_ (fun p hp => ?_) places ((hself ht hagree).trans noted)
    · rw [hagree.targets _ ht.lt (Nat.le_refl _)]
      exact target
    · obtain ⟨start, hc, hag⟩ := ht.agree_child hagree kind (List.of_mem_zip hp).1
      exact ih p hp hc hag

theorem Typed.stable_child {lo id c : Nat} {k : NodeKind} {ty : Ty}
    (h : a.Typed u table info c ty) (ht : a.Tree lo id)
    (hagree : SemanticInfo.Agree lo id info info') (hk : a.kind id = .ok k) (hc : c ∈ k.children) :
    a.Typed u table info' c ty := by
  obtain ⟨start, hstart, hag⟩ := ht.agree_child hagree hk hc
  exact h.stable hstart hag

theorem Checked.stable {ret : Ty} {lo id : Nat} (h : a.Checked u table info ret id)
    (ht : a.Tree lo id) (hagree : SemanticInfo.Agree lo id info info') :
    a.Checked u table info' ret id := by
  induction h generalizing lo with
  | block kind parts ih =>
    refine .block kind fun x hx => ?_
    obtain ⟨start, hc, hag⟩ := ht.agree_child hagree kind hx
    exact ih x hx hc hag
  | declare kind declaration known => exact .declare kind declaration known
  | assign kind target value =>
    exact .assign kind (target.stable_child ht hagree kind (.head _))
      (value.stable_child ht hagree kind (.tail _ (.head _)))
  | callStatement kind call =>
    exact .callStatement kind (call.stable_child ht hagree kind (.head _))
  | branch kind condition onTrue onFalse ih ih' =>
    obtain ⟨start, hc, hag⟩ := ht.agree_child hagree kind (.tail _ (.head _))
    refine .branch kind (condition.stable_child ht hagree kind (.head _)) (ih hc hag) fun x hx => ?_
    obtain ⟨start, hc, hag⟩ := ht.agree_child hagree kind
      (.tail _ (.tail _ (Option.mem_toList.2 hx)))
    exact ih' x hx hc hag
  | loop kind condition body ih =>
    obtain ⟨start, hc, hag⟩ := ht.agree_child hagree kind (.tail _ (.head _))
    exact .loop kind (condition.stable_child ht hagree kind (.head _)) (ih hc hag)
  | ret kind value none =>
    exact .ret kind (fun v hv => (value v hv).stable_child ht hagree kind (Option.mem_toList.2 hv))
      none
  | empty kind => exact .empty kind

end Arena

end MiniJ
