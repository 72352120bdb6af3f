import MiniJ.Proofs.Arena.Depth
import MiniJ.Proofs.Typing.Sound

/-!
# Runs of the type checker side by side

The type checker writes its tables and never reads them, and it looks at a program only through
its nodes, the types of its variables, its records and its overload sets. So two runs that see the
same of these give the same results, whatever their tables hold and however deep they may descend.

## Main definitions

* `Typing.Tandem` — two runs give the same result and keep a relation between their tables.
* `Typing.Context.Matches` — two programs that look the same from some nodes.

## Main statements

* `Typing.tandem_checkExpression`, `Typing.tandem_checkStatement`, `Typing.tandem_checkFunction` —
  parts of programs that look the same.
-/
namespace MiniJ

namespace Typing

variable {α β : Type} {cx cx' : Context} {R : State → State → Prop} {s t : State}

/-! ### Two runs -/

/-- From related tables, `x` and `y` give the same result and leave related tables. -/
def Tandem (R : State → State → Prop) (cx cx' : Context) (x y : CheckM α) : Prop :=
  ∀ s t, R s t → (outcome x cx s).1 = (outcome y cx' t).1 ∧
    R (outcome x cx s).2 (outcome y cx' t).2

/-- The relation outlasts equal notes on both sides. -/
structure Stays (R : State → State → Prop) : Prop where
  type : ∀ id ty s t, R s t → R { s with types := SemanticInfo.setRow s.types id ty }
    { t with types := SemanticInfo.setRow t.types id ty }
  target : ∀ id target s t, R s t → R { s with targets := SemanticInfo.setRow s.targets id target }
    { t with targets := SemanticInfo.setRow t.targets id target }

theorem Tandem.succeeds {x y : CheckM α} {v : α} {s' : State} (h : Tandem R cx cx' x y)
    (hR : R s t) (hx : Succeeds x cx s v s') : ∃ t', Succeeds y cx' t v t' ∧ R s' t' := by
  obtain ⟨hresult, htables⟩ := h s t hR
  rw [hx] at hresult htables
  exact ⟨(outcome y cx' t).2, Prod.ext hresult.symm rfl, htables⟩

theorem tandem_pure (v : α) : Tandem R cx cx' (pure v) (pure v) := fun _ _ hR => ⟨rfl, hR⟩

theorem tandem_throw (e : Failure SemanticError) :
    Tandem R cx cx' (throw e : CheckM α) (throw e) := fun _ _ hR => ⟨rfl, hR⟩

theorem tandem_fail (cause : SemanticError.Cause) (span : Span) :
    Tandem R cx cx' (fail cause span : CheckM α) (fail cause span) := tandem_throw _

theorem tandem_lift {x y : Except Fault α} (h : y = x) :
    Tandem R cx cx' (liftM x) (liftM y) := fun _ _ hR => ⟨by rw [h]; rfl, hR⟩

theorem tandem_setType (hR : Stays R) (id : NodeId) (ty : Ty) :
    Tandem R cx cx' (setType id ty) (setType id ty) := fun s t h => ⟨rfl, hR.type id ty s t h⟩

theorem tandem_setTarget (hR : Stays R) (id : NodeId) (target : CallTarget) :
    Tandem R cx cx' (setTarget id target) (setTarget id target) :=
  fun s t h => ⟨rfl, hR.target id target s t h⟩

/-- The second steps are compared on the values that the first one can give. -/
theorem tandem_bind_of {x y : CheckM α} {f g : α → CheckM β} (hx : Tandem R cx cx' x y)
    (hf : ∀ s v s', Succeeds x cx s v s' → Tandem R cx cx' (f v) (g v)) :
    Tandem R cx cx' (x >>= f) (y >>= g) := by
  intro s t hR
  obtain ⟨hresult, htables⟩ := hx s t hR
  rw [outcome_bind, outcome_bind]
  rcases hr : outcome x cx s with ⟨_ | v, s'⟩ <;> rcases hr' : outcome y cx' t with ⟨_ | w, t'⟩ <;>
    rw [hr, hr'] at hresult htables <;> cases hresult
  · exact ⟨rfl, htables⟩
  · exact hf s v s' hr s' t' htables

theorem tandem_bind {x y : CheckM α} {f g : α → CheckM β} (hx : Tandem R cx cx' x y)
    (hf : ∀ v, Tandem R cx cx' (f v) (g v)) : Tandem R cx cx' (x >>= f) (y >>= g) :=
  tandem_bind_of hx fun _ v _ _ => hf v

theorem tandem_read {f g : Context → CheckM β} (h : Tandem R cx cx' (f cx) (g cx')) :
    Tandem R cx cx' (read >>= f) (read >>= g) := h

theorem tandem_ite {c : Prop} [Decidable c] {x x' y y' : CheckM α} (hx : Tandem R cx cx' x x')
    (hy : Tandem R cx cx' y y') :
    Tandem R cx cx' (if c then x else y) (if c then x' else y') := by
  split
  · exact hx
  · exact hy

theorem tandem_attempt {x y : CheckM α} (h : Tandem R cx cx' x y) :
    Tandem R cx cx' (attempt x) (attempt y) := by
  intro s t hR
  obtain ⟨hresult, htables⟩ := h s t hR
  rw [outcome_attempt, outcome_attempt]
  generalize outcome x cx s = p at hresult htables ⊢
  generalize outcome y cx' t = q at hresult htables ⊢
  obtain ⟨r, s'⟩ := p
  obtain ⟨r', t'⟩ := q
  obtain rfl : r = r' := hresult
  rcases r with (_ | _) | _ <;> exact ⟨rfl, htables⟩

theorem tandem_mapM {f g : α → CheckM β} {xs : List α}
    (h : ∀ x ∈ xs, Tandem R cx cx' (f x) (g x)) : Tandem R cx cx' (xs.mapM f) (xs.mapM g) := by
  induction xs with
  | nil => exact tandem_pure []
  | cons x xs ih =>
    rw [List.mapM_cons, List.mapM_cons]
    exact tandem_bind (h x (by simp)) fun y =>
      tandem_bind (ih fun z hz => h z (by simp [hz])) fun ys => tandem_pure _

theorem tandem_forM {f g : α → CheckM PUnit} {xs : List α}
    (h : ∀ x ∈ xs, Tandem R cx cx' (f x) (g x)) : Tandem R cx cx' (xs.forM f) (xs.forM g) := by
  induction xs with
  | nil => exact tandem_pure _
  | cons x xs ih =>
    exact tandem_bind (h x (by simp)) fun _ => ih fun z hz => h z (by simp [hz])

/-! ### Programs that look the same -/

/-- What the entry a node was resolved to holds, if it was resolved: a type if it is a variable. -/
def Context.held (cx : Context) (id : NodeId) : Option (Except Fault (Option Ty)) :=
  (SemanticInfo.row cx.resolved id).map fun e =>
    (cx.table.entry e).map fun x =>
      match x.meaning with
      | .var ty .. => some ty
      | _ => none

/-- The overload set of a name as it is seen from a node. -/
def Context.overloads (cx : Context) (id : NodeId) (name : String) :
    Except Fault (Option (List Signature)) :=
  cx.table.lookupFunction name ((SemanticInfo.row cx.scopes id).getD ScopeId.global)

/-- Nodes with property `P` look the same in both programs. -/
structure Context.Matches (cx cx' : Context) (P : Nat → Prop) : Prop where
  records : cx'.table.lookupRecord = cx.table.lookupRecord
  node : ∀ i, P i → cx'.arena.node i = cx.arena.node i
  held : ∀ i name, P i → cx.arena.kind i = .ok (.var name) → cx'.held i = cx.held i
  overloads : ∀ i name args, P i → cx.arena.kind i = .ok (.call name args) →
    cx'.overloads i name = cx.overloads i name

theorem Context.Matches.refl (cx : Context) (P : Nat → Prop) : cx.Matches cx P :=
  ⟨rfl, fun _ _ => rfl, fun _ _ _ _ => rfl, fun _ _ _ _ _ => rfl⟩

theorem tandem_node {id : NodeId} (h : cx'.arena.node id = cx.arena.node id) :
    Tandem R cx cx' (node id) (node id) := tandem_read (tandem_lift h)

theorem outcome_variableType_of_row (id : NodeId) (name : String) (span : Span) :
    outcome (variableType id name span) cx s = outcome (match SemanticInfo.row cx.resolved id with
      | none => fail (.undeclared name) span
      | some entry => (do
        match (← cx.table.entry entry).meaning with
        | .var ty .. => return ty
        | _ => fail (.notAVariable name) span : CheckM Ty)) cx s := rfl

/-- What a look-up of a variable gives is read off what its node holds. -/
theorem outcome_variableType (id : NodeId) (name : String) (span : Span) :
    outcome (variableType id name span) cx s = ((match cx.held id with
      | none => .error (.reported ⟨.undeclared name, span⟩)
      | some (.error f) => .error (.fault f)
      | some (.ok none) => .error (.reported ⟨.notAVariable name, span⟩)
      | some (.ok (some ty)) => .ok ty), s) := by
  unfold Context.held
  rw [outcome_variableType_of_row]
  cases SemanticInfo.row cx.resolved id with
  | none => rfl
  | some e =>
    simp only [outcome_bind, Option.map_some]
    have hlift : outcome (liftM (cx.table.entry e)) cx s =
      ((cx.table.entry e).mapError Failure.fault, s) := rfl
    rw [hlift]
    cases cx.table.entry e with
    | error f => rfl
    | ok x =>
      simp only [Except.mapError, Except.map]
      cases x.meaning <;> rfl

section Parts

variable {check check' : Checker} {P : Nat → Prop}

theorem tandem_variableType {id : NodeId} (h : cx'.held id = cx.held id) (name : String)
    (span : Span) :
    Tandem R cx cx' (variableType id name span) (variableType id name span) := by
  intro s t hR
  rw [outcome_variableType, outcome_variableType, h]
  exact ⟨rfl, hR⟩

theorem tandem_fieldType (h : cx'.table.lookupRecord = cx.table.lookupRecord)
    (record name : String) (span : Span) :
    Tandem R cx cx' (fieldType record name span) (fieldType record name span) := by
  refine tandem_read (tandem_bind (tandem_lift (congrFun h record)) fun found => ?_)
  split
  · exact tandem_fail _ _
  · split
    · exact tandem_pure _
    · exact tandem_fail _ _

theorem tandem_argumentTypes {args : List NodeId}
    (hnode : ∀ arg ∈ args, cx'.arena.node arg = cx.arena.node arg)
    (h : ∀ arg ∈ args, ∀ e, Tandem R cx cx' (check arg e) (check' arg e)) :
    Tandem R cx cx' (argumentTypes check args) (argumentTypes check' args) :=
  tandem_mapM fun arg harg => tandem_bind (tandem_node (hnode arg harg)) fun _ =>
    tandem_ite (tandem_pure _) (tandem_bind (h arg harg none) fun _ => tandem_pure _)

theorem tandem_fits {expected : Ty} {arg : NodeId × Option Ty}
    (h : ∀ e, Tandem R cx cx' (check arg.1 e) (check' arg.1 e)) :
    Tandem R cx cx' (fits check expected arg) (fits check' expected arg) := by
  obtain ⟨arg, _ | ty⟩ := arg
  · exact tandem_bind (tandem_attempt (h _)) fun _ => tandem_pure _
  · exact tandem_pure _

theorem tandem_allFit {args : List (NodeId × Option Ty)} {params : List Binder}
    (h : ∀ p ∈ args, ∀ e, Tandem R cx cx' (check p.1 e) (check' p.1 e)) :
    Tandem R cx cx' (allFit check args params) (allFit check' args params) := by
  induction args generalizing params with
  | nil => exact tandem_pure _
  | cons arg args ih =>
    cases params with
    | nil => exact tandem_pure _
    | cons param params =>
      refine tandem_bind (tandem_fits (h arg (by simp))) fun fit => tandem_ite ?_ (tandem_pure _)
      exact ih fun p hp => h p (by simp [hp])

theorem tandem_choose {args : List (NodeId × Option Ty)} {expected : Option Ty}
    {overloads : List Signature}
    (h : ∀ p ∈ args, ∀ e, Tandem R cx cx' (check p.1 e) (check' p.1 e)) :
    Tandem R cx cx' (choose check args expected overloads)
      (choose check' args expected overloads) := by
  induction overloads with
  | nil => exact tandem_pure _
  | cons candidate rest ih =>
    exact tandem_ite ih (tandem_ite ih
      (tandem_bind (tandem_allFit h) fun fit => tandem_ite (tandem_pure _) ih))

theorem tandem_describe {args : List (NodeId × Option Ty)}
    (h : ∀ p ∈ args, ∀ e, Tandem R cx cx' (check p.1 e) (check' p.1 e)) :
    Tandem R cx cx' (describe check args) (describe check' args) := by
  refine tandem_mapM fun p hp => ?_
  obtain ⟨arg, _ | ty⟩ := p
  · exact tandem_attempt (h _ hp none)
  · exact tandem_pure _

theorem tandem_settle {args : List (NodeId × Option Ty)} {params : List Binder}
    (hnode : ∀ p ∈ args, cx'.arena.node p.1 = cx.arena.node p.1)
    (h : ∀ p ∈ args, ∀ e, Tandem R cx cx' (check p.1 e) (check' p.1 e)) :
    Tandem R cx cx' (settle check args params) (settle check' args params) := by
  induction args generalizing params with
  | nil => exact tandem_pure _
  | cons arg args ih =>
    cases params with
    | nil => exact tandem_pure _
    | cons param params =>
      have hrest : Tandem R cx cx' (settle check args params) (settle check' args params) :=
        ih (fun p hp => hnode p (by simp [hp])) fun p hp => h p (by simp [hp])
      have hplace {c : Prop} [Decidable c] (cause : SemanticError.Cause) (span : Span) :
          Tandem R cx cx' (if c then (do fail cause span; settle check args params)
            else settle check args params)
              (if c then (do fail cause span; settle check' args params)
            else settle check' args params) :=
        tandem_ite (tandem_bind (tandem_fail _ _) fun _ => hrest) hrest
      exact tandem_bind (tandem_node (hnode arg (by simp))) fun n =>
        tandem_ite (tandem_bind (h arg (by simp) _) fun _ => hplace _ _) (hplace _ _)

theorem tandem_checkCall {id : Nat} {span : Span} {name : String} {args : List NodeId}
    {expected : Option Ty} (hR : Stays R)
    (hoverloads : cx'.overloads id name = cx.overloads id name)
    (hnode : ∀ arg ∈ args, cx'.arena.node arg = cx.arena.node arg)
    (h : ∀ arg ∈ args, ∀ e, Tandem R cx cx' (check arg e) (check' arg e)) :
    Tandem R cx cx' (checkCall check id span name args expected)
      (checkCall check' id span name args expected) := by
  refine tandem_read (tandem_bind (tandem_lift hoverloads) fun overloads => ?_)
  refine tandem_bind_of (tandem_argumentTypes hnode h) fun s typed s' htyped => ?_
  have hmem : ∀ p ∈ typed, p.1 ∈ args := by
    intro p hp
    obtain ⟨arg, harg, hp, -⟩ := Outcome.exists_of_forall₂_right (argumentTypes_cases htyped) hp
    exact hp ▸ harg
  have hargs : ∀ p ∈ typed, ∀ e, Tandem R cx cx' (check p.1 e) (check' p.1 e) :=
    fun p hp => h p.1 (hmem p hp)
  refine tandem_bind (tandem_choose hargs) fun chosen => ?_
  cases chosen with
  | none => exact tandem_bind (tandem_describe hargs) fun _ => tandem_fail _ _
  | some sig =>
    exact tandem_bind (tandem_settle (fun p hp => hnode p.1 (hmem p hp)) hargs) fun _ =>
      tandem_bind (tandem_setTarget hR _ _) fun _ => tandem_pure _

/-- One level of an expression, whose parts are compared already. -/
theorem tandem_checkKind {id : Nat} {expected : Option Ty} {n : Node} (hR : Stays R)
    (hmatch : cx.Matches cx' P) (hid : P id) (hk : cx.arena.kind id = .ok n.kind)
    (hparts : ∀ c ∈ n.kind.children, P c)
    (h : ∀ c ∈ n.kind.children, ∀ e, Tandem R cx cx' (check c e) (check' c e)) :
    Tandem R cx cx' (checkKind check id expected n) (checkKind check' id expected n) := by
  obtain ⟨k, span⟩ := n
  cases k with
  | var name => exact tandem_variableType (hmatch.held id name hid hk) _ _
  | field base name =>
    refine tandem_bind (h base (.head _) _) fun found => ?_
    split
    · exact tandem_fieldType hmatch.records _ _ _
    · exact tandem_fail _ _
  | element base index =>
    refine tandem_bind (h base (.head _) _) fun found => ?_
    split
    · refine tandem_bind (h index (.tail _ (.head _)) _) fun found => tandem_ite ?_ (tandem_pure _)
      exact tandem_bind (tandem_node (hmatch.node _ (hparts index (.tail _ (.head _))))) fun _ =>
        tandem_bind (tandem_fail _ _) fun _ => tandem_pure _
    · exact tandem_fail _ _
  | unary op operand =>
    refine tandem_bind (h operand (.head _) _) fun found => ?_
    split
    · exact tandem_fail _ _
    · exact tandem_bind (tandem_node (hmatch.node _ (hparts operand (.head _)))) fun _ =>
        tandem_ite (tandem_bind (tandem_fail _ _) fun _ => tandem_pure _) (tandem_pure _)
  | binary op left right =>
    refine tandem_bind (h left (.head _) _) fun l =>
      tandem_bind (h right (.tail _ (.head _)) _) fun r => ?_
    split
    · exact tandem_fail _ _
    · exact tandem_pure _
  | call name args =>
    exact tandem_checkCall hR (hmatch.overloads id name args hid hk)
      (fun arg harg => hmatch.node arg (hparts arg harg)) h
  | _ => exact tandem_pure _

end Parts

/-! ### Expressions and statements -/

variable {P : Nat → Prop}

/-- The check of an expression depends neither on the tables nor on the depth it may descend to. -/
theorem tandem_checkExpression {depth depth' id : Nat} (hR : Stays R) (hmatch : cx.Matches cx' P)
    (hP : ∀ i, cx.arena.Below id i → P i) (hdepth : cx.arena.Within depth id)
    (hdepth' : cx.arena.Within depth' id) (expected : Option Ty) :
    Tandem R cx cx' (checkExpression depth id expected) (checkExpression depth' id expected) := by
  induction depth generalizing depth' id expected with
  | zero => exact absurd hdepth Arena.not_within_zero
  | succ depth ih =>
    cases depth' with
    | zero => exact absurd hdepth' Arena.not_within_zero
    | succ depth' =>
      have hid := hP id (.self id)
      refine tandem_bind_of (tandem_node (hmatch.node id hid)) fun s n s' hn => ?_
      obtain ⟨hn, -⟩ := succeeds_node.1 hn
      have hk : cx.arena.kind id = .ok n.kind := Arena.kind_eq_ok_iff.2 ⟨n.span, hn⟩
      refine tandem_bind (tandem_checkKind hR hmatch hid hk
        (fun c hc => hP c (.child hk hc (.self c))) fun c hc e => ?_) fun ty =>
        tandem_bind (tandem_setType hR id ty) fun _ => tandem_pure _
      exact ih (fun i hi => hP i (.child hk hc hi)) (hdepth.child hk hc) (hdepth'.child hk hc) e

theorem tandem_checkRoot {lo id : Nat} (hR : Stays R) (hmatch : cx.Matches cx' P)
    (hsize : cx'.arena.size = cx.arena.size) (hP : ∀ i, cx.arena.Below id i → P i)
    (htree : cx.arena.Tree lo id) (expected : Option Ty) :
    Tandem R cx cx' (checkRoot id expected) (checkRoot id expected) := by
  refine tandem_read (tandem_checkExpression hR hmatch hP htree.within ?_ expected)
  rw [Arena.depthLimit, hsize]
  exact htree.within

theorem tandem_checkType (hmatch : cx.Matches cx' P) (ty : Ty) (span : Span) :
    Tandem R cx cx' (checkType ty span) (checkType ty span) := by
  unfold checkType
  split
  · refine tandem_read (tandem_bind (tandem_lift (congrFun hmatch.records _)) fun found => ?_)
    exact tandem_ite (tandem_fail _ _) (tandem_pure _)
  · exact tandem_pure _

theorem tandem_checkDeclaration {id : Nat} (hmatch : cx.Matches cx' P) (hid : P id) :
    Tandem R cx cx' (checkDeclaration id) (checkDeclaration id) := by
  refine tandem_bind (tandem_node (hmatch.node id hid)) fun n => ?_
  split
  · exact tandem_checkType hmatch _ _
  · exact tandem_pure _

theorem tandem_checkCondition {lo id : Nat} (hR : Stays R) (hmatch : cx.Matches cx' P)
    (hsize : cx'.arena.size = cx.arena.size) (hP : ∀ i, cx.arena.Below id i → P i)
    (htree : cx.arena.Tree lo id) (construct : Conditional) :
    Tandem R cx cx' (checkCondition construct id) (checkCondition construct id) := by
  refine tandem_bind (tandem_checkRoot hR hmatch hsize hP htree _) fun found => ?_
  exact tandem_ite (tandem_bind (tandem_node (hmatch.node id (hP id (.self id)))) fun _ =>
    tandem_fail _ _) (tandem_pure _)

theorem tandem_checkStatement {ret : Ty} {depth depth' id : Nat} (hR : Stays R)
    (hmatch : cx.Matches cx' P) (hsize : cx'.arena.size = cx.arena.size)
    (hP : ∀ i, cx.arena.Below id i → P i) (hdepth : cx.arena.Within depth id)
    (hdepth' : cx.arena.Within depth' id) :
    Tandem R cx cx' (checkStatement ret depth id) (checkStatement ret depth' id) := by
  induction depth generalizing depth' id with
  | zero => exact absurd hdepth Arena.not_within_zero
  | succ depth ih =>
    cases depth' with
    | zero => exact absurd hdepth' Arena.not_within_zero
    | succ depth' =>
      refine tandem_bind_of (tandem_node (hmatch.node id (hP id (.self id)))) fun s n s' hn => ?_
      obtain ⟨hn, -⟩ := succeeds_node.1 hn
      have hk : cx.arena.kind id = .ok n.kind := Arena.kind_eq_ok_iff.2 ⟨n.span, hn⟩
      obtain ⟨k, span⟩ := n
      have hroot : ∀ c ∈ k.children, ∀ e, Tandem R cx cx' (checkRoot c e) (checkRoot c e) := by
        intro c hc e
        obtain ⟨start, htree, -⟩ := hdepth.child hk hc
        exact tandem_checkRoot hR hmatch hsize (fun i hi => hP i (.child hk hc hi)) htree e
      have hcondition : ∀ c ∈ k.children, ∀ construct, Tandem R cx cx' (checkCondition construct c)
          (checkCondition construct c) := by
        intro c hc construct
        obtain ⟨start, htree, -⟩ := hdepth.child hk hc
        exact tandem_checkCondition hR hmatch hsize (fun i hi => hP i (.child hk hc hi)) htree _
      have hpart : ∀ c ∈ k.children, Tandem R cx cx' (checkStatement ret depth c)
          (checkStatement ret depth' c) := fun c hc =>
        ih (fun i hi => hP i (.child hk hc hi)) (hdepth.child hk hc) (hdepth'.child hk hc)
      cases k with
      | block body => exact tandem_forM hpart
      | declare d => exact tandem_checkDeclaration hmatch (hP d (.child hk (.head _) (.self d)))
      | assign target value =>
        refine tandem_bind (hroot target (.head _) _) fun expected => ?_
        refine tandem_bind (hroot value (.tail _ (.head _)) _) fun found => ?_
        exact tandem_ite (tandem_fail _ _) (tandem_pure _)
      | callStatement c => exact tandem_bind (hroot c (.head _) _) fun _ => tandem_pure _
      | branch condition onTrue onFalse =>
        refine tandem_bind (hcondition condition (.head _) _) fun _ => ?_
        refine tandem_bind (hpart onTrue (.tail _ (.head _))) fun _ => ?_
        cases onFalse with
        | none => exact tandem_pure _
        | some other => exact hpart other (.tail _ (.tail _ (.head _)))
      | loop condition body =>
        exact tandem_bind (hcondition condition (.head _) _) fun _ =>
          hpart body (.tail _ (.head _))
      | ret value =>
        cases value with
        | none =>
          exact tandem_bind (tandem_pure _) fun _ => tandem_ite (tandem_fail _ _) (tandem_pure _)
        | some v =>
          exact tandem_bind (hroot v (.head _) _) fun _ => tandem_ite (tandem_fail _ _)
            (tandem_pure _)
      | empty => exact tandem_pure _
      | _ =>
        obtain ⟨lo, htree, -⟩ := hdepth
        exact tandem_bind (tandem_checkRoot hR hmatch hsize hP htree none) fun _ => tandem_pure _

theorem tandem_checkFunction {lo id : Nat} (hR : Stays R) (hmatch : cx.Matches cx' P)
    (hsize : cx'.arena.size = cx.arena.size) (hP : ∀ i, cx.arena.Below id i → P i)
    (htree : cx.arena.Tree lo id) : Tandem R cx cx' (checkFunction id) (checkFunction id) := by
  refine tandem_bind_of (tandem_node (hmatch.node id (hP id (.self id)))) fun s n s' hn => ?_
  obtain ⟨hn, -⟩ := succeeds_node.1 hn
  have hk : cx.arena.kind id = .ok n.kind := Arena.kind_eq_ok_iff.2 ⟨n.span, hn⟩
  obtain ⟨k, span⟩ := n
  cases k with
  | function f =>
    refine tandem_bind (tandem_checkType hmatch _ _) fun _ => ?_
    refine tandem_bind (tandem_forM fun p hp => tandem_checkDeclaration hmatch ?_) fun _ => ?_
    · exact hP p (.child hk (List.mem_append_left _ hp) (.self p))
    · refine tandem_read (tandem_forM fun r hr => ?_)
      have hmem : r ∈ (NodeKind.function f).children := List.mem_append_right _ hr
      obtain ⟨start, hstart, -⟩ := htree.child hk hmem
      refine tandem_checkStatement hR hmatch hsize (fun i hi => hP i (.child hk hmem hi))
        hstart.within ?_
      rw [Arena.depthLimit, hsize]
      exact hstart.within
  | _ => exact tandem_pure _

end Typing

end MiniJ
