import MiniJ.Proofs.Accepted
import MiniJ.Proofs.Lowering.Shape

/-!
# Lowering a function of a checked program

What a checked program says about the functions and calls that lowering meets: parameters are
declared, and the callee of a call takes as many arguments as the call passes.

## Main definitions

* `Gen.Context.Lowers` — code is generated for a function of a checked program.
-/
namespace MiniJ

/-- Parameters that are passed as an address: references and records. -/
def Binder.byAddress (b : Binder) : Bool := b.isReference || b.ty.isRecord

/-- A builtin is found under its name. -/
theorem Builtin.named?_name : ∀ b ∈ Builtin.all, Builtin.named? b.name = some b := by decide

/-- No builtin takes an address. -/
theorem Builtin.byAddress_params :
    ∀ b ∈ Builtin.all, ∀ p ∈ b.signature.params, p.byAddress = false := by decide

variable {a : Arena} {u : UnitNode} {table : SymbolTable} {info : SemanticInfo}

namespace Arena

theorem binder?_eq_ok {p : Nat} {b : Binder} (h : a.kind p = .ok (.declaration b)) :
    a.binder? p = .ok (some b) := by
  rw [binder?, h]
  rfl

theorem function?_eq_ok {d : Nat} {f : FunctionNode} (h : a.kind d = .ok (.function f)) :
    a.function? d = .ok (some f) := by
  rw [function?, h]
  rfl

/-- Declaration nodes and what they declare. -/
def Declares (a : Arena) (ids : List NodeId) (bs : List Binder) : Prop :=
  List.Forall₂ (fun p b => a.kind p = .ok (.declaration b)) ids bs

theorem Declares.mapM {ids : List NodeId} {bs : List Binder} (h : a.Declares ids bs) :
    ids.mapM a.binder? = .ok (bs.map some) := by
  rw [Outcome.mapM_eq_ok, List.forall₂_map_right_iff]
  exact h.imp fun _ _ hp => binder?_eq_ok hp

theorem exists_declares {ids : List NodeId} (h : ∀ p ∈ ids, a.IsDeclaration p) :
    ∃ bs, a.Declares ids bs := by
  induction ids with
  | nil => exact ⟨[], .nil⟩
  | cons p ids ih =>
    obtain ⟨b, hb⟩ := h p (by simp)
    obtain ⟨bs, hbs⟩ := ih fun q hq => h q (by simp [hq])
    exact ⟨b :: bs, .cons hb hbs⟩

theorem Declares.of_binders {ids : List NodeId} {bs : List Binder}
    (hdecl : ∀ p ∈ ids, a.IsDeclaration p) (h : Binding.binders a ids = .ok bs) :
    a.Declares ids bs := by
  obtain ⟨bs', hbs'⟩ := exists_declares hdecl
  simp only [Binding.binders, Outcome.bind_eq_ok, Outcome.pure_eq_ok, hbs'.mapM] at h
  obtain ⟨_, hmap, hbs⟩ := h
  cases hmap
  rw [List.filterMap_map] at hbs
  simpa [← hbs] using hbs'

end Arena

/-! ### Functions -/

/-- The parameters of a function are declarations. -/
theorem CheckedProgram.params_declared (h : CheckedProgram a u table info) {id p : Nat}
    {f : FunctionNode} (hid : id ∈ u.functions) (hf : a.kind id = .ok (.function f))
    (hp : p ∈ f.params) : a.IsDeclaration p := by
  obtain ⟨-, start, htree⟩ := h.layout.function_tree hid
  exact htree.isDeclaration_param hf hp

/-! ### Calls -/

theorem Arena.Typed.call_cases {id : Nat} {ty : Ty} {name : String} {args : List NodeId}
    (h : a.Typed u table info id ty) (hk : a.kind id = .ok (.call name args)) :
    ∃ sig : Signature, sig.Describes a u name ∧ args.length = sig.params.length ∧
      info.callTarget id = some (Typing.target name sig) ∧
      (∀ p ∈ args.zip sig.params, a.Typed u table info p.1 p.2.ty) ∧
      (∀ p ∈ args.zip sig.params, p.2.isReference = true → a.IsPlace p.1) ∧
      ty = sig.returnType := by
  cases h with
  | call kind signature arity target typed places noted =>
    obtain ⟨rfl, rfl⟩ := NodeKind.call.inj (Except.ok.inj (kind.symm.trans hk))
    exact ⟨_, signature, arity, target, typed, places, rfl⟩
  | _ => simp_all

/-- A signature with a definition describes a function of the program. -/
theorem Signature.Describes.function {name : String} {sig : Signature} {d : Nat}
    (h : sig.Describes a u name) (hd : sig.definition = some d) :
    d ∈ u.functions ∧ ∃ f, a.kind d = .ok (.function f) ∧ f.name = name ∧
      f.returnType = sig.returnType ∧ Binding.binders a f.params = .ok sig.params := by
  unfold Signature.Describes at h
  rwa [hd] at h

/-- A signature without a definition describes a builtin. -/
theorem Signature.Describes.builtin {name : String} {sig : Signature}
    (h : sig.Describes a u name) (hd : sig.definition = none) :
    ∃ b, Builtin.named? name = some b ∧ sig = b.signature := by
  unfold Signature.Describes at h
  rw [hd] at h
  obtain ⟨b, hb, rfl, rfl⟩ := h
  exact ⟨b, Builtin.named?_name b hb, rfl⟩

/-- The parameters of the function that a signature describes. -/
theorem CheckedProgram.declares_params (h : CheckedProgram a u table info) {d : Nat}
    {f : FunctionNode} {bs : List Binder} (hd : d ∈ u.functions) (hf : a.kind d = .ok (.function f))
    (hbs : Binding.binders a f.params = .ok bs) : a.Declares f.params bs :=
  .of_binders (fun _ hp => h.params_declared hd hf hp) hbs

namespace Lowering

open Gen

variable {cx : Context} {id : NodeId} {args : List NodeId} {name : String} {sig : Signature}
  {callee : Callee}

/-- What is passed to the callee is what its signature says. -/
theorem Calls.of_signature (hprogram : CheckedProgram cx.arena u cx.table cx.info)
    (hsig : sig.Describes cx.arena u name) (harity : args.length = sig.params.length)
    (htarget : cx.info.callTarget id = some (Typing.target name sig))
    (h : Calls cx id args callee) :
    callee.byAddress = sig.params.map Binder.byAddress ∧
      callee.returnsValue = decide (sig.returnType ≠ .void) := by
  rw [Typing.target] at htarget
  cases h with
  | @function definition f params label target found scalar binders labelled =>
    rw [target] at htarget
    split at htarget
    · next d hd =>
      cases htarget
      obtain ⟨hmem, g, hg, -, hreturn, hbinders⟩ := hsig.function hd
      cases found.symm.trans (Arena.function?_eq_ok hg)
      rw [(hprogram.declares_params hmem hg hbinders).mapM] at binders
      cases binders
      refine ⟨?_, by simp [hreturn]⟩
      rw [List.map_map]
      rfl
    · cases htarget
  | @builtin label b target found =>
    rw [target] at htarget
    split at htarget
    · cases htarget
    · next hd =>
      cases htarget
      obtain ⟨b', hb', rfl⟩ := hsig.builtin hd
      cases found.symm.trans hb'
      have hmem : b ∈ Builtin.all := List.mem_of_find?_eq_some found
      have hnone : b.signature.params.map Binder.byAddress =
          b.signature.params.map fun _ => false :=
        List.map_congr_left (Builtin.byAddress_params b hmem)
      refine ⟨?_, rfl⟩
      rw [hnone, List.map_const', List.map_const', harity]

/-- A callee takes as many arguments as a call passes. -/
theorem Calls.length_byAddress {ty : Ty} (hprogram : CheckedProgram cx.arena u cx.table cx.info)
    (htyped : cx.arena.Typed u cx.table cx.info id ty)
    (hk : cx.arena.kind id = .ok (.call name args)) (h : Calls cx id args callee) :
    callee.byAddress.length = args.length := by
  obtain ⟨sig, hsig, harity, htarget, -⟩ := htyped.call_cases hk
  rw [(h.of_signature hprogram hsig harity htarget).1, List.length_map, harity]

end Lowering

/-! ### Nodes of a function -/

/-- The parts of a typed expression are typed. -/
theorem Arena.Typed.child {id c : Nat} {ty : Ty} {k : NodeKind} (h : a.Typed u table info id ty)
    (hk : a.kind id = .ok k) (hc : c ∈ k.children) : ∃ ty', a.Typed u table info c ty' := by
  cases h with
  | int kind | text kind | bool kind | var kind =>
    cases kind.symm.trans hk
    simp [NodeKind.children] at hc
  | field kind part =>
    cases kind.symm.trans hk
    cases List.mem_singleton.1 hc
    exact ⟨_, part⟩
  | element kind array position =>
    cases kind.symm.trans hk
    rcases List.mem_cons.1 hc with rfl | hc
    · exact ⟨_, array⟩
    · cases List.mem_singleton.1 hc
      exact ⟨_, position⟩
  | unary kind part =>
    cases kind.symm.trans hk
    cases List.mem_singleton.1 hc
    exact ⟨_, part⟩
  | binary kind first second =>
    cases kind.symm.trans hk
    rcases List.mem_cons.1 hc with rfl | hc
    · exact ⟨_, first⟩
    · cases List.mem_singleton.1 hc
      exact ⟨_, second⟩
  | @call _ name args sig kind signature arity target typed =>
    cases kind.symm.trans hk
    rw [NodeKind.children, ← List.map_fst_zip (Nat.le_of_eq arity), List.mem_map] at hc
    obtain ⟨p, hp, rfl⟩ := hc
    exact ⟨_, typed p hp⟩

/-- A part of a checked function: a statement, an expression or a declaration. -/
def Arena.Annotated (a : Arena) (u : UnitNode) (table : SymbolTable) (info : SemanticInfo)
    (ret : Ty) (id : Nat) : Prop :=
  a.Checked u table info ret id ∨ (∃ ty, a.Typed u table info id ty) ∨ a.IsDeclaration id

theorem Arena.Checked.child {ret : Ty} {id c : Nat} {k : NodeKind}
    (h : a.Checked u table info ret id) (hk : a.kind id = .ok k) (hc : c ∈ k.children) :
    a.Annotated u table info ret c := by
  cases h with
  | block kind parts =>
    cases kind.symm.trans hk
    exact .inl (parts c hc)
  | declare kind declaration known =>
    cases kind.symm.trans hk
    cases List.mem_singleton.1 hc
    exact .inr (.inr ⟨_, declaration⟩)
  | assign kind place typed =>
    cases kind.symm.trans hk
    rcases List.mem_cons.1 hc with rfl | hc
    · exact .inr (.inl ⟨_, place⟩)
    · cases List.mem_singleton.1 hc
      exact .inr (.inl ⟨_, typed⟩)
  | callStatement kind call =>
    cases kind.symm.trans hk
    cases List.mem_singleton.1 hc
    exact .inr (.inl ⟨_, call⟩)
  | branch kind test first second =>
    cases kind.symm.trans hk
    rcases List.mem_cons.1 hc with rfl | hc
    · exact .inr (.inl ⟨_, test⟩)
    · rcases List.mem_cons.1 hc with rfl | hc
      · exact .inl first
      · exact .inl (second c (Option.mem_toList.1 hc))
  | loop kind test inner =>
    cases kind.symm.trans hk
    rcases List.mem_cons.1 hc with rfl | hc
    · exact .inr (.inl ⟨_, test⟩)
    · cases List.mem_singleton.1 hc
      exact .inl inner
  | ret kind typed =>
    cases kind.symm.trans hk
    exact .inr (.inl ⟨_, typed c (Option.mem_toList.1 hc)⟩)
  | empty kind =>
    cases kind.symm.trans hk
    cases hc

theorem Arena.Annotated.below {ret : Ty} {id x : Nat} (hx : a.Below id x)
    (h : a.Annotated u table info ret id) : a.Annotated u table info ret x := by
  induction hx with
  | self => exact h
  | child kind mem _ ih =>
    rcases h with h | ⟨ty, h⟩ | ⟨b, h⟩
    · exact ih (h.child kind mem)
    · exact ih (.inr (.inl (h.child kind mem)))
    · cases kind.symm.trans h
      cases mem

/-- The expressions in the body of a function are typed. -/
theorem CheckedProgram.typed_below (h : CheckedProgram a u table info) {id r x : Nat}
    {f : FunctionNode} {k : NodeKind} (hid : id ∈ u.functions) (hf : a.kind id = .ok (.function f))
    (hr : r ∈ f.body) (hx : a.Below r x) (hk : a.kind x = .ok k) (hrole : k.role = .expression) :
    ∃ ty, a.Typed u table info x ty := by
  have hbody := (h.typed.functions id hid f hf).body r hr
  rcases Arena.Annotated.below hx (.inl hbody) with hc | ht | ⟨b, hb⟩
  · cases hc <;> rename_i kind <;> cases kind.symm.trans hk <;> cases hrole
  · exact ht
  · cases hb.symm.trans hk
    cases hrole

namespace Gen

/-- Code is generated for function `f` of a checked program. -/
structure Context.Lowers (cx : Context) (u : UnitNode) (f : FunctionNode) : Prop where
  program : CheckedProgram cx.arena u cx.table cx.info
  member : ∃ id ∈ u.functions, cx.arena.kind id = .ok (.function f)
  frame : Frame.layout cx.arena cx.info cx.table f = .ok cx.frame

theorem Context.Lowers.typed {cx : Context} {f : FunctionNode} (h : cx.Lowers u f) {r x : Nat}
    {k : NodeKind} (hr : r ∈ f.body) (hx : cx.arena.Below r x) (hk : cx.arena.kind x = .ok k)
    (hrole : k.role = .expression) : ∃ ty, cx.arena.Typed u cx.table cx.info x ty := by
  obtain ⟨id, hid, hf⟩ := h.member
  exact h.program.typed_below hid hf hr hx hk hrole

/-- The node lies in the body of the function. -/
def Context.InBody (cx : Context) (f : FunctionNode) (id : Nat) : Prop :=
  ∃ r ∈ f.body, cx.arena.Below r id

theorem Context.InBody.child {cx : Context} {f : FunctionNode} {id c : Nat} {k : NodeKind}
    (h : cx.InBody f id) (hk : cx.arena.kind id = .ok k) (hc : c ∈ k.children) : cx.InBody f c := by
  obtain ⟨r, hr, hbelow⟩ := h
  exact ⟨r, hr, hbelow.trans (.child hk hc (.self c))⟩

theorem Context.Lowers.typed_inBody {cx : Context} {f : FunctionNode} (h : cx.Lowers u f) {id : Nat}
    {k : NodeKind} (hin : cx.InBody f id) (hk : cx.arena.kind id = .ok k)
    (hrole : k.role = .expression) : ∃ ty, cx.arena.Typed u cx.table cx.info id ty := by
  obtain ⟨r, hr, hbelow⟩ := hin
  exact h.typed hr hbelow hk hrole

/-- A node in the body of a function is the root of a tree. -/
theorem Context.Lowers.tree {cx : Context} {f : FunctionNode} (h : cx.Lowers u f) {id : Nat}
    (hin : cx.InBody f id) : ∃ start, cx.arena.Tree start id := by
  obtain ⟨fid, hfid, hf⟩ := h.member
  obtain ⟨r, hr, hbelow⟩ := hin
  obtain ⟨-, lo, htree⟩ := h.program.layout.function_tree hfid
  obtain ⟨start, hsub, -⟩ := htree.sub (.child hf (List.mem_append_right _ hr) hbelow)
  exact ⟨start, hsub⟩

end Gen

end MiniJ
