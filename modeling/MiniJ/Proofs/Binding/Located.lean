import MiniJ.Proofs.Binding.Scoping
import MiniJ.Proofs.Semantic.Error

/-!
# Where errors of binding are

Binding reports errors at nodes of the program and names only what the program names, so its errors
are at a byte of the program and take one line.

## Main definitions

* `Binding.Reports` — a part of the pass reports only errors at a byte of the program.

## Main statements

* `Arena.located_bind` — the error of a program that binding rejects.
-/
namespace MiniJ

open Text

variable {source : SourceId} {size : Nat}

namespace Binding

variable {α β X : Type} {a : Arena}

/-- What nodes declare takes one line. -/
theorem binders_oneLine (h : a.From (.program source size)) {ids : List NodeId} {bs : List Binder}
    (hbs : binders a ids = .ok bs) : ∀ b ∈ bs, b.OneLine := by
  simp only [binders, Outcome.bind_eq_ok, Outcome.pure_eq_ok] at hbs
  obtain ⟨found, hfound, rfl⟩ := hbs
  intro b hb
  obtain ⟨_, hmem, rfl⟩ := List.mem_filterMap.1 hb
  obtain ⟨id, -, hid⟩ := Outcome.exists_of_forall₂_right (Outcome.mapM_eq_ok.1 hfound) hmem
  simp only [Arena.binder?, Outcome.bind_eq_ok, Outcome.pure_eq_ok] at hid
  obtain ⟨k, hk, hb'⟩ := hid
  exact .of_kind (h.kind hk) hb'

/-- Every error that is reported is at a byte of the program. -/
def Reports (source : SourceId) (size : Nat) (x : BindM α) : Prop :=
  ∀ s e, (outcome x s).1 = .error (.reported e) → e.Located source size

namespace Reports

theorem pure (v : α) : Reports source size (Pure.pure v) := fun _ _ h => nomatch h

theorem fault (f : Fault) : Reports source size (throw (.fault f) : BindM α) :=
  fun _ _ h => nomatch h

theorem fail {cause : SemanticError.Cause} {span : Span} (hspan : Span.In source size span)
    (hline : cause.OneLine) : Reports source size (Binding.fail cause span : BindM α) := by
  intro s e h
  cases h
  exact ⟨hspan, hline.isLine⟩

theorem bind {x : BindM α} {g : α → BindM β} (hx : Reports source size x)
    (hg : ∀ v, Reports source size (g v)) : Reports source size (x >>= g) := by
  intro s e h
  have hfirst := hx s
  rw [outcome_bind] at h
  generalize outcome x s = r at hfirst h
  obtain ⟨e' | v, t⟩ := r
  · cases h
    exact hfirst e rfl
  · exact hg v t e h

/-- A fault is not reported. -/
theorem lift_bind {x : Except Fault α} {g : α → BindM β}
    (hg : ∀ v, x = .ok v → Reports source size (g v)) :
    Reports source size (liftM x >>= g) := by
  cases x with
  | error f => exact fun _ _ h => nomatch h
  | ok v => exact hg v rfl

theorem get_bind {g : State → BindM β} (hg : ∀ s, Reports source size (g s)) :
    Reports source size (get >>= g) := fun s e h => hg s s e h

theorem modify (g : State → State) : Reports source size (modify g : BindM PUnit) :=
  fun _ _ h => nomatch h

theorem ite {c : Prop} [Decidable c] {x y : BindM α} (hx : Reports source size x)
    (hy : Reports source size y) : Reports source size (if c then x else y) := by
  split
  · exact hx
  · exact hy

theorem forM {g : X → BindM Unit} {xs : List X} (h : ∀ x ∈ xs, Reports source size (g x)) :
    Reports source size (xs.forM g) := by
  induction xs with
  | nil => exact pure ()
  | cons x xs ih => exact (h x (by simp)).bind fun _ => ih fun y hy => h y (by simp [hy])

/-! ### Declarations -/

theorem ensureFresh {name : String} {span : Span} (hname : IsLine name)
    (hspan : Span.In source size span) :
    Reports source size (ensureFresh name span) := by
  refine get_bind fun s => lift_bind fun found _ => ?_
  split
  · exact lift_bind fun entry _ => fail hspan hname
  · exact pure ()

theorem declare (name : String) (m : Meaning) (span : Span) :
    Reports source size (declare name m span) :=
  get_bind fun _ => (modify _).bind fun _ => pure _

theorem declareVariable (h : a.From (.program source size)) (id : NodeId) (cls : VariableClass) :
    Reports source size (declareVariable a id cls) := by
  refine lift_bind fun node hnode => ?_
  have hfrom := h.node hnode
  split
  · exact pure ()
  · next b hb =>
    have hline := Binder.OneLine.of_kind hfrom.kind hb
    exact (ensureFresh hline.name hfrom.span).bind fun _ => (modify _).bind fun _ =>
      (declare _ _ _).bind fun _ => pure ()

theorem inScope (name : String) (e : EntryId) {body : BindM Unit} (h : Reports source size body) :
    Reports source size (inScope name e body) := by
  intro s e' he
  rw [outcome_inScope] at he
  exact h _ e' he

theorem bindRecord (h : a.From (.program source size)) (id : NodeId) :
    Reports source size (bindRecord a id) := by
  refine lift_bind fun node hnode => ?_
  have hfrom := h.node hnode
  split
  · exact pure ()
  · next r hr =>
    have hname : IsLine r.name := by
      have hkind := hfrom.kind
      generalize node.kind = k at hr hkind
      cases k <;> cases hr
      exact IsName.isLine hkind
    exact (ensureFresh hname hfrom.span).bind fun _ => (modify _).bind fun _ =>
      lift_bind fun _ _ => (declare _ _ _).bind fun _ =>
        inScope _ _ (forM fun d _ => declareVariable h d _)

theorem registerOverload {name : String} {sig : Signature} {span : Span} (hname : IsLine name)
    (hsig : ∀ b ∈ sig.params, b.OneLine) (hspan : Span.In source size span) :
    Reports source size (registerOverload name sig span) := by
  have hduplicate : (SemanticError.Cause.duplicateFunction name sig).OneLine := ⟨hname, hsig⟩
  refine get_bind fun s => lift_bind fun found _ => ?_
  split
  · exact declare _ _ _
  · refine lift_bind fun entry _ => ?_
    split
    · exact fail hspan hname
    · exact ite ((fail hspan hduplicate).bind fun _ => (modify _).bind fun _ => pure _)
        ((modify _).bind fun _ => pure _)

/-! ### Bodies and programs -/

theorem resolveVariable {id : NodeId} {name : String} {span : Span} (hname : IsLine name)
    (hspan : Span.In source size span) : Reports source size (resolveVariable id name span) := by
  refine get_bind fun s => ?_
  dsimp only
  split
  · exact fail hspan hname
  · refine lift_bind fun entry _ => ?_
    split
    · exact modify _
    · exact fail hspan hname

theorem bindNode (h : a.From (.program source size)) (depth : Nat) (id : NodeId) :
    Reports source size (bindNode a depth id) := by
  induction depth generalizing id with
  | zero => exact fault _
  | succ depth ih =>
    refine lift_bind fun node hnode => (modify _).bind fun _ => ?_
    have hfrom := h.node hnode
    split
    · exact declareVariable h _ _
    · next name hkind =>
      have hname := hfrom.kind
      rw [hkind] at hname
      exact resolveVariable (IsName.isLine hname) hfrom.span
    · exact pure ()
    · exact pure ()
    · exact pure ()
    · exact pure ()
    · exact forM fun c _ => ih c

theorem declareParameters (h : a.From (.program source size)) (index : Nat) (params : List NodeId) :
    Reports source size (declareParameters a index params) := by
  rw [declareParameters_eq]
  exact forM fun p _ => declareVariable h _ _

theorem bindFunction (h : a.From (.program source size)) (id : NodeId) :
    Reports source size (bindFunction a id) := by
  refine lift_bind fun node hnode => ?_
  have hspan : Span.In source size node.span := (h.node hnode).span
  split
  · exact pure ()
  · next f hf =>
    obtain ⟨hname, hreturn⟩ : IsLine f.name ∧ f.returnType.OneLine := by
      have hkind := (h.node hnode).kind
      generalize node.kind = k at hf hkind
      cases k <;> cases hf
      exact ⟨IsName.isLine hkind.1, Ty.From.oneLine hkind.2⟩
    have hmain {β : Type} : Reports source size
        (Binding.fail (.mainReturnType f.returnType) node.span : BindM β) := fail hspan hreturn
    have hparams {β : Type} : Reports source size
        (Binding.fail .mainHasParameters node.span : BindM β) := fail hspan trivial
    -- what follows the checks of the entry function
    have hrest := lift_bind (x := binders a f.params) (g := fun params => do
        Binding.recordScope id
        let entry ← Binding.registerOverload f.name ⟨f.returnType, params, some id⟩ node.span
        Binding.inScope f.name entry do
          Binding.declareParameters a 0 f.params
          f.body.forM (Binding.bindNode a a.depthLimit)
        if f.returnType ≠ .void && f.name ≠ "main" then
          let returned ← (f.body.anyM (returns a) : Except Fault Bool)
          if !returned then
            Binding.fail (.missingReturn f.name) node.span) fun params hbs =>
      (modify _).bind fun _ =>
        (registerOverload hname (binders_oneLine h hbs) hspan).bind fun entry =>
          (inScope f.name entry ((declareParameters h 0 f.params).bind fun _ =>
            forM fun r _ => bindNode h a.depthLimit r)).bind fun _ =>
              ite (lift_bind fun _ _ => ite (fail hspan hname) (pure ())) (pure ())
    exact ite (ite (hmain.bind fun _ => ite (hparams.bind fun _ => hrest) hrest)
      (ite (hparams.bind fun _ => hrest) hrest)) hrest

theorem bindUnit (h : a.From (.program source size)) : Reports source size (bindUnit a) := by
  refine lift_bind fun node hnode => ?_
  split
  · exact (modify _).bind fun _ => (forM fun d _ => declareVariable h d _).bind fun _ =>
      (forM fun r _ => bindRecord h r).bind fun _ => forM fun f _ => bindFunction h f
  · exact pure ()

end Reports

end Binding

/-- The error of a program that binding rejects is at one of its bytes. -/
theorem Arena.located_bind {a : Arena} {t table : SymbolTable} {info : SemanticInfo}
    {e : SemanticError}
    (h : a.From (.program source size)) (hbound : a.bind t = (.error (.reported e), table, info)) :
    e.Located source size := by
  rw [bind_eq] at hbound
  exact Binding.Reports.bindUnit h _ e (congrArg Prod.fst hbound)

end MiniJ
