import MiniJ.Proofs.Binding.Located
import MiniJ.Proofs.Typing.Storage

/-!
# Where errors of type checking are

The checker reports errors at nodes of the program. The types that it finds are spelled with names
of the program, so its messages take one line, and so does every type that it notes.

## Main definitions

* `Typing.Reports` — a part of the pass reports only errors at a byte of the program.

## Main statements

* `Arena.located_check` — the error of a program that the checker rejects.
-/
namespace MiniJ

open Text Outcome

variable {source : SourceId} {size : Nat} {a : Arena} {u : UnitNode} {t : SymbolTable}

/-! ### Tables -/

/-- A signature whose types and names take one line. -/
structure Signature.OneLine (sig : Signature) : Prop where
  returnType : sig.returnType.OneLine
  params : ∀ b ∈ sig.params, b.OneLine

theorem Builtin.oneLine_signature : ∀ b ∈ Builtin.all, b.signature.OneLine := by
  have hall : ∀ b ∈ Builtin.all, IsLine b.signature.returnType.spelling ∧
      ∀ p ∈ b.signature.params, IsLine p.name ∧ IsLine p.ty.spelling := by decide
  exact fun b hb => ⟨(hall b hb).1, fun p hp => ⟨((hall b hb).2 p hp).1, ((hall b hb).2 p hp).2⟩⟩

theorem Signature.Describes.oneLine {name : String} {sig : Signature} (h : sig.Describes a u name)
    (hfrom : a.From (.program source size)) : sig.OneLine := by
  obtain ⟨returnType, params, definition⟩ := sig
  cases definition with
  | none =>
    obtain ⟨b, hb, -, heq⟩ := h
    rw [heq]
    exact Builtin.oneLine_signature b hb
  | some d =>
    obtain ⟨-, f, hf, -, rfl, hbs⟩ := h
    exact ⟨(hfrom.kind hf).2.oneLine, Binding.binders_oneLine hfrom hbs⟩

namespace Binding.TableSound

variable (h : TableSound a u t) (hfrom : a.From (.program source size))
include h hfrom

theorem oneLine_var {e : EntryId} {x : Entry} {ty : Ty} {ref : Bool} {cls : VariableClass}
    {d : NodeId} (hx : t.entry e = .ok x) (hm : x.meaning = .var ty ref cls d) : ty.OneLine := by
  have hdescribes := h.meanings e x hx
  rw [hm] at hdescribes
  exact (hfrom.kind hdescribes.1).2.oneLine

theorem oneLine_fields {record : String} {fields : List Field}
    (hfields : t.lookupRecord record = .ok (some fields)) : ∀ f ∈ fields, f.ty.OneLine := by
  obtain ⟨s, e, x, d, -, -, hx, hm⟩ := SymbolTable.lookupRecord_eq_some_iff.1 hfields
  have hdescribes := h.meanings e x hx
  rw [hm] at hdescribes
  obtain ⟨-, r, bs, -, -, hbs, rfl⟩ := hdescribes
  intro f hf
  obtain ⟨b, hb, rfl⟩ := List.mem_map.1 hf
  exact (binders_oneLine hfrom hbs b hb).ty

end Binding.TableSound

namespace Typing

variable {α β X : Type} {cx : Context}

/-- All types that were noted take one line. -/
def State.OneLine (s : State) : Prop := ∀ i ty, SemanticInfo.row s.types i = some ty → ty.OneLine

/-- Values have `P`, and every error that is reported is at a byte of the program. Types that are
noted take one line. -/
def Reports (source : SourceId) (size : Nat) (cx : Context) (x : CheckM α) (P : α → Prop) : Prop :=
  ∀ s : State, s.OneLine → (outcome x cx s).2.OneLine ∧
    Settles (outcome x cx s).1 P fun failure => ∀ e, failure = .reported e → e.Located source size

namespace Reports

variable {P : α → Prop} {Q : β → Prop} {x : CheckM α} {g : α → CheckM β}

theorem pure {v : α} (h : P v) : Reports source size cx (Pure.pure v) P := fun _ hs => ⟨hs, h⟩

theorem fault (f : Fault) : Reports source size cx (throw (.fault f) : CheckM α) P :=
  fun _ hs => ⟨hs, fun _ he => nomatch he⟩

theorem fail {cause : SemanticError.Cause} {span : Span} (hspan : Span.In source size span)
    (hline : cause.OneLine) : Reports source size cx (Typing.fail cause span : CheckM α) P := by
  intro s hs
  refine ⟨hs, fun e he => ?_⟩
  cases he
  exact ⟨hspan, hline.isLine⟩

theorem bind (hx : Reports source size cx x P) (hg : ∀ v, P v → Reports source size cx (g v) Q) :
    Reports source size cx (x >>= g) Q := by
  intro s hs
  have hfirst := hx s hs
  rw [outcome_bind]
  generalize outcome x cx s = r at hfirst ⊢
  obtain ⟨e | v, t⟩ := r
  · exact hfirst
  · exact hg v hfirst.2 t hfirst.1

theorem fail_bind {cause : SemanticError.Cause} {span : Span} (hspan : Span.In source size span)
    (hline : cause.OneLine) : Reports source size cx (Typing.fail cause span >>= g) Q :=
  (fail (P := fun _ => False) hspan hline).bind fun _ h => h.elim

theorem lift_bind {x : Except Fault α} (hg : ∀ v, x = .ok v → Reports source size cx (g v) Q) :
    Reports source size cx (liftM x >>= g) Q := by
  cases x with
  | error f => exact fun _ hs => ⟨hs, fun _ he => nomatch he⟩
  | ok v => exact hg v rfl

theorem read_bind {g : Context → CheckM β} (hg : Reports source size cx (g cx) Q) :
    Reports source size cx (read >>= g) Q := hg

theorem node_bind {id : NodeId} {g : Node → CheckM β}
    (hg : ∀ n, cx.arena.node id = .ok n → Reports source size cx (g n) Q) :
    Reports source size cx (node id >>= g) Q := by
  intro s hs
  have hnode : outcome (node id) cx s = ((cx.arena.node id).mapError Failure.fault, s) := rfl
  rw [outcome_bind, hnode]
  cases hn : cx.arena.node id with
  | error f => exact ⟨hs, fun _ he => nomatch he⟩
  | ok n => exact hg n hn s hs

theorem ite {c : Prop} [Decidable c] {y : CheckM α} (hx : Reports source size cx x P)
    (hy : Reports source size cx y P) : Reports source size cx (if c then x else y) P := by
  split
  · exact hx
  · exact hy

theorem attempt (hx : Reports source size cx x P) :
    Reports source size cx (attempt x) fun found => ∀ v, found = some v → P v := by
  intro s hs
  have hfirst := hx s hs
  rw [outcome_attempt]
  generalize outcome x cx s = r at hfirst ⊢
  obtain ⟨(e | f) | v, t⟩ := r
  · exact ⟨hfirst.1, fun _ h => nomatch h⟩
  · exact ⟨hfirst.1, fun _ he => nomatch he⟩
  · refine ⟨hfirst.1, fun w hw => ?_⟩
    cases hw
    exact hfirst.2

theorem mono {P' : α → Prop} (hx : Reports source size cx x P) (h : ∀ v, P v → P' v) :
    Reports source size cx x P' := by
  have hpure : ∀ v, P v → Reports source size cx (Pure.pure v) P' := fun v hv => pure (h v hv)
  have hbind := hx.bind hpure
  rwa [bind_pure] at hbind

theorem mapM {g : X → CheckM β} {xs : List X} (h : ∀ x ∈ xs, Reports source size cx (g x) Q) :
    Reports source size cx (xs.mapM g) fun ys => ∀ y ∈ ys, Q y := by
  induction xs with
  | nil => exact pure (by simp)
  | cons x xs ih =>
    rw [List.mapM_cons]
    refine (h x (by simp)).bind fun y hy => (ih fun z hz => h z (by simp [hz])).bind
      fun ys hys => ?_
    exact pure (List.forall_mem_cons.2 ⟨hy, hys⟩)

theorem forM {g : X → CheckM Unit} {xs : List X}
    (h : ∀ x ∈ xs, Reports source size cx (g x) fun _ => True) :
    Reports source size cx (xs.forM g) fun _ => True := by
  induction xs with
  | nil => exact pure trivial
  | cons x xs ih => exact (h x (by simp)).bind fun _ _ => ih fun y hy => h y (by simp [hy])

theorem setType {id : NodeId} {ty : Ty} (h : ty.OneLine) :
    Reports source size cx (setType id ty) fun _ => True := by
  intro s hs
  refine ⟨fun i ty' hrow => ?_, trivial⟩
  change SemanticInfo.row (SemanticInfo.setRow s.types id ty) i = some ty' at hrow
  unfold SemanticInfo.row SemanticInfo.setRow at hrow
  rw [Array.getElem?_setIfInBounds] at hrow
  split at hrow
  · split at hrow
    · cases hrow
      exact h
    · cases hrow
  · exact hs i ty' hrow

theorem setTarget (id : NodeId) (target : CallTarget) :
    Reports source size cx (setTarget id target) fun _ => True := fun _ hs => ⟨hs, trivial⟩

end Reports

/-! ### Calls -/

/-- The pass reads a program and its table. -/
structure Context.Reads (source : SourceId) (size : Nat) (cx : Context) (u : UnitNode) : Prop where
  arena : cx.arena.From (.program source size)
  table : Binding.TableSound cx.arena u cx.table

/-- A checker gives types on one line. -/
def Checker.Reports (source : SourceId) (size : Nat) (cx : Context) (check : Checker) : Prop :=
  ∀ id expected, Typing.Reports source size cx (check id expected) Ty.OneLine

variable {check : Checker} {id : NodeId} {name : String} {span : Span}

/-- The types of arguments that are known take one line. -/
def KnownOneLine (args : List (NodeId × Option Ty)) : Prop :=
  ∀ arg ∈ args, ∀ ty, arg.2 = some ty → ty.OneLine

theorem reports_argumentTypes (hcheck : check.Reports source size cx) (args : List NodeId) :
    Reports source size cx (argumentTypes check args) KnownOneLine := by
  refine .mapM fun arg _ => .node_bind fun n _ => .ite (.pure fun ty h => nomatch h) ?_
  refine (hcheck arg none).bind fun found hfound => .pure fun ty hty => ?_
  cases hty
  exact hfound

theorem reports_fits (hcheck : check.Reports source size cx) (expected : Ty)
    (arg : NodeId × Option Ty) :
    Reports source size cx (fits check expected arg) fun _ => True := by
  obtain ⟨arg, _ | ty⟩ := arg
  · exact (Reports.attempt (hcheck arg _)).bind fun _ _ => .pure trivial
  · exact .pure trivial

theorem reports_allFit (hcheck : check.Reports source size cx) (args : List (NodeId × Option Ty))
    (params : List Binder) : Reports source size cx (allFit check args params) fun _ => True := by
  induction args generalizing params with
  | nil =>
    unfold allFit
    exact .pure trivial
  | cons arg args ih =>
    cases params with
    | nil =>
      unfold allFit
      exact .pure trivial
    | cons param params =>
      rw [allFit]
      exact (reports_fits hcheck param.ty arg).bind fun _ _ => .ite (ih params) (.pure trivial)

/-- The overload that is chosen is one of the candidates. -/
theorem reports_choose (hcheck : check.Reports source size cx) (args : List (NodeId × Option Ty))
    (expected : Option Ty) {candidates : List Signature} (h : ∀ sig ∈ candidates, sig.OneLine) :
    Reports source size cx (choose check args expected candidates)
      fun found => ∀ sig, found = some sig → sig.OneLine := by
  induction candidates with
  | nil => exact .pure fun _ h => nomatch h
  | cons candidate rest ih =>
    have hrest := ih fun sig hsig => h sig (by simp [hsig])
    refine .ite hrest (.ite hrest ((reports_allFit hcheck args candidate.params).bind
      fun _ _ => ?_))
    refine .ite (.pure fun sig hsig => ?_) hrest
    cases hsig
    exact h candidate (by simp)

theorem reports_describe (hcheck : check.Reports source size cx) {args : List (NodeId × Option Ty)}
    (hargs : KnownOneLine args) :
    Reports source size cx (describe check args) fun found => ∀ ty, some ty ∈
      found → ty.OneLine := by
  refine (Reports.mapM (Q := fun found => ∀ ty, found = some ty → ty.OneLine) fun arg hmem =>
    ?_).mono
    fun found h ty hty => h _ hty ty rfl
  obtain ⟨arg, _ | ty⟩ := arg
  · exact .attempt (hcheck arg none)
  · exact .pure (hargs _ hmem)

theorem reports_settle (hcx : cx.Reads source size u) (hcheck : check.Reports source size cx)
    (args : List (NodeId × Option Ty)) {params : List Binder} (h : ∀ b ∈ params, b.OneLine) :
    Reports source size cx (settle check args params) fun _ => True := by
  induction args generalizing params with
  | nil =>
    unfold settle
    exact .pure trivial
  | cons arg args ih =>
    cases params with
    | nil =>
      unfold settle
      exact .pure trivial
    | cons param params =>
      rw [settle]
      have hrest := ih (List.forall_mem_cons.1 h).2
      refine .node_bind fun n hn => ?_
      have hplace : Reports source size cx (if param.isReference && !n.kind.isPlace then do
            Typing.fail (.referenceToNonPlace param.name) n.span
            settle check args params
          else settle check args params) fun _ => True :=
        .ite (.fail_bind (hcx.arena.node hn).span (h param (by simp)).name) hrest
      exact .ite ((hcheck arg.1 _).bind fun _ _ => hplace) hplace

theorem reports_checkCall (hcx : cx.Reads source size u) (hcheck : check.Reports source size cx)
    (hspan : Span.In source size span) (hname : IsLine name) (args : List NodeId)
    (expected : Option Ty) :
    Reports source size cx (checkCall check id span name args expected) Ty.OneLine := by
  refine .read_bind (.lift_bind fun found hfound => ?_)
  have hoverloads : ∀ sig ∈ found.getD [], sig.OneLine := fun sig hsig =>
    (describes_of_lookupFunction hcx.table hfound hsig).oneLine hcx.arena
  refine (reports_argumentTypes hcheck args).bind fun typed htyped => ?_
  refine (reports_choose hcheck typed expected hoverloads).bind fun chosen hchosen => ?_
  cases chosen with
  | none =>
    refine (reports_describe hcheck htyped).bind fun described hdescribed => ?_
    have hcause : (SemanticError.Cause.noMatchingFunction name described).OneLine :=
      ⟨hname, hdescribed⟩
    exact .fail hspan hcause
  | some sig =>
    have hsig := hchosen sig rfl
    exact (reports_settle hcx hcheck typed hsig.params).bind fun _ _ =>
      (Reports.setTarget id _).bind fun _ _ => .pure hsig.returnType

/-! ### Expressions -/

theorem reports_variableType (hcx : cx.Reads source size u) (hspan : Span.In source size span)
    (hname : IsLine name) : Reports source size cx (variableType id name span) Ty.OneLine := by
  refine .read_bind ?_
  split
  · exact .fail hspan hname
  · refine .lift_bind fun x hx => ?_
    split
    · next hm => exact .pure (hcx.table.oneLine_var hcx.arena hx hm)
    · exact .fail hspan hname

theorem reports_fieldType (hcx : cx.Reads source size u) {record : String}
    (hspan : Span.In source size span) (hrecord : IsLine record) (hname : IsLine name) :
    Reports source size cx (fieldType record name span) Ty.OneLine := by
  refine .read_bind (.lift_bind fun found hfound => ?_)
  split
  · exact .fail hspan hrecord
  · next fields =>
    split
    · next f hf =>
      exact .pure (hcx.table.oneLine_fields hcx.arena hfound f (List.mem_of_find?_eq_some hf))
    · have hcause : (SemanticError.Cause.unknownField record name).OneLine := ⟨hrecord, hname⟩
      exact .fail hspan hcause

theorem reports_checkKind (hcx : cx.Reads source size u) (hcheck : check.Reports source size cx)
    {expected : Option Ty} {n : Node} (hn : n.From (.program source size)) :
    Reports source size cx (checkKind check id expected n) Ty.OneLine := by
  have hplain : Ty.OneLine .int ∧ Ty.OneLine .text ∧ Ty.OneLine .bool ∧ Ty.OneLine .void := by
    unfold Ty.OneLine
    decide
  obtain ⟨hint, htext, hbool, hvoid⟩ := hplain
  obtain ⟨kind, span⟩ := n
  obtain ⟨hspan, hkind⟩ := hn
  unfold checkKind
  cases kind with
  | int value => exact .pure hint
  | text value => exact .pure htext
  | bool value => exact .pure hbool
  | var name => exact reports_variableType hcx hspan (IsName.isLine hkind)
  | field base name =>
    refine (hcheck base none).bind fun found hfound => ?_
    split
    · exact reports_fieldType hcx hspan hfound (IsName.isLine hkind)
    · exact .fail hspan hfound
  | element base index =>
    refine (hcheck base none).bind fun found hfound => ?_
    split
    · next element =>
      have helement : element.OneLine := (isLine_append.1 hfound).1
      refine (hcheck index _).bind fun position hposition => .ite ?_ (.pure helement)
      exact .node_bind fun part hpart => .fail_bind (hcx.arena.node hpart).span hposition
    · exact .fail hspan hfound
  | unary op operand =>
    refine (hcheck operand none).bind fun found hfound => ?_
    split
    · exact .fail hspan hfound
    · next ty hty =>
      obtain ⟨rfl, -⟩ := UnaryOp.result_cases hty
      exact .node_bind fun part hpart => .ite (.fail_bind hspan trivial) (.pure hfound)
  | binary op left right =>
    refine (hcheck left none).bind fun leftType hleft => (hcheck right none).bind
      fun rightType hright => ?_
    split
    · have hcause : (SemanticError.Cause.invalidBinary op leftType rightType).OneLine :=
        ⟨hleft, hright⟩
      exact .fail hspan hcause
    · next ty hty =>
      obtain ⟨-, -, rfl | rfl | rfl⟩ := BinaryOp.result_cases hty
      · exact .pure hint
      · exact .pure hbool
      · exact .pure htext
  | call name args => exact reports_checkCall hcx hcheck hspan (IsName.isLine hkind) args expected
  | _ => exact .pure hvoid

theorem reports_checkExpression (hcx : cx.Reads source size u) (depth : Nat) :
    (checkExpression depth).Reports source size cx := by
  induction depth with
  | zero => exact fun _ _ => .fault _
  | succ depth ih =>
    intro id expected
    refine .node_bind fun n hn => (reports_checkKind hcx ih (hcx.arena.node hn)).bind
      fun ty hty => ?_
    exact (Reports.setType hty).bind fun _ _ => .pure hty

theorem reports_checkRoot (hcx : cx.Reads source size u) : checkRoot.Reports source size cx :=
  fun id expected => .read_bind (reports_checkExpression hcx _ id expected)

/-! ### Statements and programs -/

theorem reports_checkType {ty : Ty} (hspan : Span.In source size span) (hty : ty.OneLine) :
    Reports source size cx (checkType ty span) fun _ => True := by
  have hbase : ∀ record, ty.base = .record record → IsLine record := by
    induction ty with
    | record name =>
      intro record h
      cases h
      exact hty
    | array element ih => exact ih (isLine_append.1 hty).1
    | _ => exact fun _ h => nomatch h
  unfold checkType
  split
  · next name hname =>
    exact .read_bind (.lift_bind fun _ _ => .ite (.fail hspan (hbase name hname)) (.pure trivial))
  · exact .pure trivial

theorem reports_checkDeclaration (hcx : cx.Reads source size u) (id : NodeId) :
    Reports source size cx (checkDeclaration id) fun _ => True := by
  refine .node_bind fun n hn => ?_
  have hfrom := hcx.arena.node hn
  split
  · next b hb => exact reports_checkType hfrom.span (Binder.OneLine.of_kind hfrom.kind hb).ty
  · exact .pure trivial

theorem reports_checkCondition (hcx : cx.Reads source size u) (construct : Conditional)
    (id : NodeId) :
    Reports source size cx (checkCondition construct id) fun _ => True := by
  refine (reports_checkRoot hcx id _).bind fun found hfound => .ite ?_ (.pure trivial)
  exact .node_bind fun n hn => .fail (hcx.arena.node hn).span hfound

theorem reports_checkStatement (hcx : cx.Reads source size u) {returnType : Ty}
    (hreturn : returnType.OneLine) (depth : Nat) (id : NodeId) :
    Reports source size cx (checkStatement returnType depth id) fun _ => True := by
  induction depth generalizing id with
  | zero => exact .fault _
  | succ depth ih =>
    refine .node_bind fun n hn => ?_
    have hspan : Span.In source size n.span := (hcx.arena.node hn).span
    split
    · exact .forM fun s _ => ih s
    · exact reports_checkDeclaration hcx _
    · refine (reports_checkRoot hcx _ _).bind fun expected hexpected =>
        (reports_checkRoot hcx _ _).bind fun found hfound => .ite ?_ (.pure trivial)
      have hcause : (SemanticError.Cause.assignmentMismatch expected found).OneLine :=
        ⟨hexpected, hfound⟩
      exact .fail hspan hcause
    · exact (reports_checkRoot hcx _ _).bind fun _ _ => .pure trivial
    · refine (reports_checkCondition hcx _ _).bind fun _ _ => (ih _).bind fun _ _ => ?_
      split
      · exact ih _
      · exact .pure trivial
    · exact (reports_checkCondition hcx _ _).bind fun _ _ => ih _
    · next value _ =>
      have hmismatch : ∀ found : Ty, found.OneLine → Reports source size cx
          (if found ≠ returnType then Typing.fail (.returnMismatch returnType found) n.span
            else Pure.pure ()) fun _ => True := by
        intro found hfound
        have hcause : (SemanticError.Cause.returnMismatch returnType found).OneLine :=
          ⟨hreturn, hfound⟩
        exact .ite (.fail hspan hcause) (.pure trivial)
      cases value with
      | some value => exact (reports_checkRoot hcx value _).bind hmismatch
      | none => exact (Reports.pure (by unfold Ty.OneLine; decide)).bind hmismatch
    · exact .pure trivial
    · exact (reports_checkRoot hcx _ _).bind fun _ _ => .pure trivial

theorem reports_checkRecord (hcx : cx.Reads source size u) (id : NodeId) :
    Reports source size cx (checkRecord id) fun _ => True := by
  refine .node_bind fun n _ => ?_
  split
  · exact .forM fun d _ => reports_checkDeclaration hcx d
  · exact .pure trivial

theorem reports_checkFunction (hcx : cx.Reads source size u) (id : NodeId) :
    Reports source size cx (checkFunction id) fun _ => True := by
  refine .node_bind fun n hn => ?_
  have hfrom := hcx.arena.node hn
  split
  · exact .pure trivial
  · next f hf =>
    have hreturn : f.returnType.OneLine := by
      have hkind := hfrom.kind
      generalize n.kind = k at hf hkind
      cases k <;> cases hf
      exact hkind.2.oneLine
    exact (reports_checkType hfrom.span hreturn).bind fun _ _ =>
      (Reports.forM fun d _ => reports_checkDeclaration hcx d).bind fun _ _ =>
        .read_bind (.forM fun s _ => reports_checkStatement hcx hreturn _ s)

theorem reports_checkUnit (hcx : cx.Reads source size u) :
    Reports source size cx checkUnit fun _ => True := by
  refine .node_bind fun n _ => ?_
  split
  · exact (Reports.forM fun d _ => reports_checkDeclaration hcx d).bind fun _ _ =>
      (Reports.forM fun r _ => reports_checkRecord hcx r).bind fun _ _ =>
        .forM fun f _ => reports_checkFunction hcx f
  · exact .pure trivial

end Typing

/-- The error of a program that the checker rejects is at one of its bytes, and the types that the
checker notes take one line. -/
theorem Arena.located_check {r : Except (Failure SemanticError) Unit} {table' : SymbolTable}
    {info info' : SemanticInfo} (hfrom : a.From (.program source size))
    (htable : Binding.TableSound a u t) (hblank : info.types = (SemanticInfo.blank a.size).types)
    (hchecked : a.check t info = (r, table', info')) :
    (∀ e, r = .error (.reported e) → e.Located source size) ∧
      ∀ id ty, info'.typeOf id = some ty → ty.OneLine := by
  have hstart : Typing.State.OneLine ⟨info.types, info.targets⟩ := by
    intro i ty hrow
    rw [hblank] at hrow
    simp only [SemanticInfo.row, SemanticInfo.blank, Array.getElem?_replicate] at hrow
    split at hrow <;> cases hrow
  have hcheck : a.check t info =
      let r := Typing.outcome Typing.checkUnit ⟨a, t, info.scopes, info.resolved⟩
        ⟨info.types, info.targets⟩
      (r.1, t.withoutBuiltins, { info with types := r.2.types, targets := r.2.targets }) := rfl
  have hreports := @Typing.reports_checkUnit source size u ⟨a, t, info.scopes, info.resolved⟩
    ⟨hfrom, htable⟩ _ hstart
  simp only [hcheck, Prod.mk.injEq] at hchecked
  obtain ⟨rfl, rfl, rfl⟩ := hchecked
  refine ⟨fun e he => ?_, hreports.1⟩
  have hsettles := hreports.2
  rw [he] at hsettles
  exact hsettles e rfl

end MiniJ
