import MiniJ.Proofs.Layout.Storage
import MiniJ.Proofs.Lowering.Context

/-!
# Types of a checked program

Every type that a checked program declares, and the type of every expression but calls without a
result, is storable: it is not `void` and names only declared records.

## Main statements

* `CheckedProgram.storable_field` — fields of records are storable.
* `Gen.Context.Lowers.storable` — expressions are storable.
-/
namespace MiniJ

open Outcome

variable {a : Arena} {u : UnitNode} {table : SymbolTable} {info : SemanticInfo}

namespace CheckedProgram

variable (h : CheckedProgram a u table info)
include h

theorem storable_global {g : Nat} {b : Binder} (hg : g ∈ u.globals)
    (hb : a.kind g = .ok (.declaration b)) : table.Storable b.ty := by
  obtain ⟨-, start, htree⟩ := h.layout.globals g hg
  exact ⟨htree.shaped hb, h.typed.globals g hg b hb⟩

theorem storable_param {id p : Nat} {f : FunctionNode} {b : Binder} (hid : id ∈ u.functions)
    (hf : a.kind id = .ok (.function f)) (hp : p ∈ f.params)
    (hb : a.kind p = .ok (.declaration b)) : table.Storable b.ty := by
  obtain ⟨-, start, htree⟩ := h.layout.function_tree hid
  obtain ⟨start', hchild, -⟩ := htree.child hf (List.mem_append_left _ hp)
  exact ⟨hchild.shaped hb, (h.typed.functions id hid f hf).params p hp b hb⟩

theorem storable_local {id r x d : Nat} {f : FunctionNode} {b : Binder} (hid : id ∈ u.functions)
    (hf : a.kind id = .ok (.function f)) (hr : r ∈ f.body) (hx : a.Below r x)
    (hk : a.kind x = .ok (.declare d)) (hb : a.kind d = .ok (.declaration b)) :
    table.Storable b.ty := by
  obtain ⟨-, start, htree⟩ := h.layout.function_tree hid
  have hbelow : a.Below id d :=
    .child hf (List.mem_append_right _ hr) (hx.trans (.child hk (.head _) (.self d)))
  obtain ⟨start', hsub, -⟩ := htree.sub hbelow
  refine ⟨hsub.shaped hb, ?_⟩
  rcases Arena.Annotated.below hx (.inl ((h.typed.functions id hid f hf).body r hr)) with
    hc | ⟨_, ht⟩ | ⟨_, hd⟩
  · cases hc with
    | declare kind declaration known =>
      cases kind.symm.trans hk
      cases declaration.symm.trans hb
      exact known
    | _ => simp_all
  · cases ht <;> simp_all
  · cases hd.symm.trans hk

/-- Variables of a function are storable. -/
theorem storable_declared {id d : Nat} {f : FunctionNode} {b : Binder} (hid : id ∈ u.functions)
    (hf : a.kind id = .ok (.function f)) (hd : Binding.DeclaredIn a f d)
    (hb : a.kind d = .ok (.declaration b)) : table.Storable b.ty := by
  rcases hd with hp | ⟨r, hr, x, hx, hk⟩
  · exact h.storable_param hid hf hp hb
  · exact h.storable_local hid hf hr hx hk hb

/-- The fields of a record as its node declares them. -/
theorem record_declares {name : String} {fields : List Field}
    (hfields : table.lookupRecord name = .ok (some fields)) :
    ∃ id ∈ u.records, ∃ r bs, a.kind id = .ok (.record r) ∧ r.name = name ∧
      a.Declares r.fields bs ∧ fields = bs.map fun b => ⟨b.name, b.ty⟩ := by
  obtain ⟨s, e, x, d, hs, he, hx, hm⟩ := SymbolTable.lookupRecord_eq_some_iff.1 hfields
  have hdescribes := h.bound.sound.meanings e x hx
  rw [hm] at hdescribes
  obtain ⟨hd, r, bs, hk, hname, hbs, heq⟩ := hdescribes
  obtain ⟨y, hy, hyname⟩ := h.bound.sound.names _ s hs name e (Scope.mem_of_find? he)
  cases hx.symm.trans hy
  obtain ⟨-, start, htree⟩ := h.layout.records d hd
  have hdecl : ∀ p ∈ r.fields, a.IsDeclaration p := fun p hp => htree.isDeclaration_field hk hp
  exact ⟨d, hd, r, bs, hk, hname.trans hyname, .of_binders hdecl hbs, heq⟩

/-- Fields of records are storable. -/
theorem storable_field {name : String} {fields : List Field} {f : Field}
    (hfields : table.lookupRecord name = .ok (some fields)) (hf : f ∈ fields) :
    table.Storable f.ty := by
  obtain ⟨id, hid, r, bs, hk, -, hdeclares, rfl⟩ := h.record_declares hfields
  obtain ⟨b, hb, rfl⟩ := List.mem_map.1 hf
  obtain ⟨p, hp, hkind⟩ := exists_of_forall₂_right hdeclares hb
  obtain ⟨-, start, htree⟩ := h.layout.records id hid
  obtain ⟨start', hchild, -⟩ := htree.child hk hp
  exact ⟨hchild.shaped hkind, h.typed.records id hid r hk p hp b hkind⟩

/-- What a function gives back is storable, if it gives back anything. -/
theorem storable_result {id : Nat} {f : FunctionNode} (hid : id ∈ u.functions)
    (hf : a.kind id = .ok (.function f)) : f.returnType = .void ∨ table.Storable f.returnType := by
  obtain ⟨-, start, htree⟩ := h.layout.function_tree hid
  rcases htree.shaped hf with hvoid | hdeclarable
  · exact .inl hvoid
  · exact .inr ⟨hdeclarable, (h.typed.functions id hid f hf).result⟩

end CheckedProgram

/-! ### Expressions -/

theorem SymbolTable.storable_of_builtin {ty : Ty} (h : ty = .int ∨ ty = .bool ∨ ty = .text) :
    table.Storable ty := by
  rcases h with rfl | rfl | rfl <;> exact ⟨by simp [Ty.Declarable, Ty.base], fun _ h => by cases h⟩

theorem UnaryOp.result_cases {op : UnaryOp} {inner ty : Ty} (h : op.result? inner = some ty) :
    ty = inner ∧ (inner = .int ∨ inner = .bool) := by
  cases op <;> cases inner <;> simp_all [UnaryOp.result?]

theorem BinaryOp.result_cases {op : BinaryOp} {l r ty : Ty} (h : op.result? l r = some ty) :
    r = l ∧ (l = .int ∨ l = .bool ∨ l = .text) ∧ (ty = .int ∨ ty = .bool ∨ ty = .text) := by
  unfold BinaryOp.result? at h
  split at h
  · next heq =>
    subst heq
    cases op <;> cases l <;> simp_all [BinaryOp.resultOn?]
  · cases h

/-- The operands of a binary operator are plain values of one type. -/
theorem Arena.Typed.binary_cases {id left right : Nat} {op : BinaryOp} {ty : Ty}
    (h : a.Typed u table info id ty) (hk : a.kind id = .ok (.binary op left right)) :
    ∃ inner, a.Typed u table info left inner ∧ a.Typed u table info right inner ∧
      inner ≠ .void ∧ inner.isRecord = false ∧ op.result? inner inner = some ty := by
  cases h with
  | binary kind first second result =>
    cases kind.symm.trans hk
    obtain ⟨rfl, hplain, -⟩ := BinaryOp.result_cases result
    refine ⟨_, first, second, ?_, ?_, result⟩ <;> rcases hplain with rfl | rfl | rfl <;>
      simp [Ty.isRecord]
  | _ => simp_all

/-- Builtins give back nothing or a plain value. -/
theorem Builtin.returnType_cases : ∀ b ∈ Builtin.all, b.signature.returnType = .void ∨
    b.signature.returnType = .int ∨ b.signature.returnType = .bool ∨
    b.signature.returnType = .text := by decide

namespace Gen.Context

variable {cx : Context} {f : FunctionNode}

namespace Lowers

/-- A variable in the body of a function is a global or declared by the function. -/
theorem declared (h : cx.Lowers u f) {id : Nat} {name : String} (hin : InBody cx f id)
    (hk : cx.arena.kind id = .ok (.var name)) : ∃ e x ty ref cls d,
      cx.info.resolvedEntry id = some e ∧ cx.table.entry e = .ok x ∧
      x.meaning = .var ty ref cls d ∧ cx.arena.kind d = .ok (.declaration ⟨x.name, ty, ref⟩) ∧
      (cls = .global ∧ d ∈ u.globals ∨ cls ≠ .global ∧ Binding.DeclaredIn cx.arena f d) := by
  obtain ⟨fid, hfid, hf⟩ := h.member
  obtain ⟨r, hr, hbelow⟩ := hin
  obtain ⟨e, x, ty, ref, cls, d, hresolved, hentry, hmeaning, hscope⟩ :=
    h.program.bound.resolves fid hfid f hf r hr id name hbelow hk
  have hdescribes := h.program.bound.sound.meanings e x hentry
  rw [hmeaning] at hdescribes
  refine ⟨e, x, ty, ref, cls, d, hresolved, hentry, hmeaning, hdescribes.1, ?_⟩
  rcases hscope with hglobal | hinner
  · exact .inl ⟨hglobal, hdescribes.2 hglobal⟩
  · exact .inr hinner

/-- Expressions of the function are storable, apart from calls without a result. -/
theorem storable_or_call (h : cx.Lowers u f) {id : Nat} {ty : Ty} (hin : InBody cx f id)
    (htyped : cx.arena.Typed u cx.table cx.info id ty) :
    cx.table.Storable ty ∨ ty = .void ∧ ¬cx.arena.IsPlace id := by
  induction htyped with
  | int | text | bool => exact .inl (SymbolTable.storable_of_builtin (by simp))
  | var kind resolved entry meaning =>
    obtain ⟨fid, hfid, hf⟩ := h.member
    obtain ⟨e, x, ty', ref, cls, d, hresolved, hentry, hmeaning, hd, hscope⟩ := h.declared hin kind
    cases resolved.symm.trans hresolved
    cases entry.symm.trans hentry
    cases meaning.symm.trans hmeaning
    rcases hscope with ⟨-, hglobal⟩ | ⟨-, hinner⟩
    · exact .inl (h.program.storable_global hglobal hd)
    · exact .inl (h.program.storable_declared hfid hf hinner hd)
  | field kind part lookup found =>
    exact .inl (h.program.storable_field lookup (List.mem_of_find?_eq_some found))
  | element kind array position noted ih =>
    rcases ih (hin.child kind (.head _)) with hstorable | ⟨hvoid, -⟩
    · exact .inl hstorable.element
    · cases hvoid
  | unary kind part result =>
    obtain ⟨rfl, hcases⟩ := UnaryOp.result_cases result
    exact .inl (SymbolTable.storable_of_builtin (by rcases hcases with h | h <;> simp [h]))
  | binary kind first second result =>
    exact .inl (SymbolTable.storable_of_builtin (BinaryOp.result_cases result).2.2)
  | @call id name args sig kind signature =>
    have hplace : ¬cx.arena.IsPlace id := by
      rintro ⟨k, hk, hisPlace⟩
      cases kind.symm.trans hk
      cases hisPlace
    cases hd : sig.definition with
    | some d =>
      obtain ⟨hmem, g, hg, -, hreturn, -⟩ := signature.function hd
      rw [← hreturn]
      exact (h.program.storable_result hmem hg).symm.imp_right fun hvoid => ⟨hvoid, hplace⟩
    | none =>
      obtain ⟨b, hb, rfl⟩ := signature.builtin hd
      rcases Builtin.returnType_cases b (List.mem_of_find?_eq_some hb) with hvoid | hplain
      · exact .inr ⟨hvoid, hplace⟩
      · exact .inl (SymbolTable.storable_of_builtin hplain)

theorem storable (h : cx.Lowers u f) {id : Nat} {ty : Ty} (hin : InBody cx f id)
    (htyped : cx.arena.Typed u cx.table cx.info id ty) (hvoid : ty ≠ .void) :
    cx.table.Storable ty :=
  (h.storable_or_call hin htyped).resolve_right fun hcall => hvoid hcall.1

theorem storable_place (h : cx.Lowers u f) {id : Nat} {ty : Ty} (hin : InBody cx f id)
    (htyped : cx.arena.Typed u cx.table cx.info id ty) (hplace : cx.arena.IsPlace id) :
    cx.table.Storable ty :=
  (h.storable_or_call hin htyped).resolve_right fun hcall => hcall.2 hplace

end Lowers

end Gen.Context

end MiniJ
