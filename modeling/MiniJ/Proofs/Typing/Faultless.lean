import MiniJ.Proofs.Binding.Registry
import MiniJ.Proofs.Typing.Standing

/-!
# Checks that do not fault

A check looks up nodes, entries, records and overload sets. In a bound program all of these are
there, so the check of an expression gives a type or reports an error. Only then does a trial that
fails let the next candidate have its turn.

## Main definitions

* `Typing.Faultless` — a part of the pass never faults.
* `Typing.Context.Readable` — what a check of some nodes looks up is there.

## Main statements

* `Typing.faultless_checkExpression` — expressions of readable programs.
* `Arena.readable_of_bind` — bound programs are readable.
-/
namespace MiniJ

namespace Typing

variable {α β : Type} {cx : Context}

/-- No run of `x` faults. -/
def Faultless (cx : Context) (x : CheckM α) : Prop :=
  ∀ s f, (outcome x cx s).1 ≠ .error (.fault f)

theorem faultless_pure (v : α) : Faultless cx (pure v) := fun _ _ h => nomatch h

theorem faultless_fail (cause : SemanticError.Cause) (span : Span) :
    Faultless cx (fail cause span : CheckM α) := fun _ _ h => nomatch h

theorem faultless_lift {x : Except Fault α} {v : α} (h : x = .ok v) : Faultless cx (liftM x) := by
  subst h
  exact faultless_pure v

/-- The second step is asked only for values that the first one can give. -/
theorem faultless_bind_of {x : CheckM α} {g : α → CheckM β} (hx : Faultless cx x)
    (hg : ∀ s v s', Succeeds x cx s v s' → Faultless cx (g v)) : Faultless cx (x >>= g) := by
  intro s f
  rw [outcome_bind]
  rcases hr : outcome x cx s with ⟨e | v, s'⟩
  · have hfirst := hx s f
    rw [hr] at hfirst
    intro heq
    cases heq
    exact hfirst rfl
  · exact hg s v s' hr s' f

theorem faultless_bind {x : CheckM α} {g : α → CheckM β} (hx : Faultless cx x)
    (hg : ∀ v, Faultless cx (g v)) : Faultless cx (x >>= g) :=
  faultless_bind_of hx fun _ v _ _ => hg v

theorem faultless_read {g : Context → CheckM β} (h : Faultless cx (g cx)) :
    Faultless cx (read >>= g) := h

theorem faultless_ite {c : Prop} [Decidable c] {x y : CheckM α} (hx : Faultless cx x)
    (hy : Faultless cx y) : Faultless cx (if c then x else y) := by
  split
  · exact hx
  · exact hy

theorem faultless_attempt {x : CheckM α} (hx : Faultless cx x) : Faultless cx (attempt x) := by
  intro s f
  have hrun := hx s f
  rw [outcome_attempt]
  generalize outcome x cx s = r at hrun ⊢
  obtain ⟨(_ | _) | _, s'⟩ := r
  · exact nofun
  · intro heq
    cases heq
    exact hrun rfl
  · exact nofun

theorem faultless_mapM {g : α → CheckM β} {xs : List α} (h : ∀ x ∈ xs, Faultless cx (g x)) :
    Faultless cx (xs.mapM g) := by
  induction xs with
  | nil => exact faultless_pure []
  | cons x xs ih =>
    rw [List.mapM_cons]
    exact faultless_bind (h x (by simp)) fun y =>
      faultless_bind (ih fun z hz => h z (by simp [hz])) fun ys => faultless_pure _

theorem faultless_setType (id : NodeId) (ty : Ty) : Faultless cx (setType id ty) :=
  fun _ _ h => nomatch h

theorem faultless_setTarget (id : NodeId) (target : CallTarget) :
    Faultless cx (setTarget id target) := fun _ _ h => nomatch h

theorem faultless_node {id : NodeId} {k : NodeKind} (h : cx.arena.kind id = .ok k) :
    Faultless cx (node id) := by
  obtain ⟨span, hnode⟩ := Arena.kind_eq_ok_iff.1 h
  exact faultless_read (faultless_lift hnode)

/-! ### What a check looks up -/

/-- What checks of nodes with property `P` look up is there. -/
structure Context.Readable (cx : Context) (P : Nat → Prop) : Prop where
  records : ∀ name, ∃ found, cx.table.lookupRecord name = .ok found
  held : ∀ i name, P i → cx.arena.kind i = .ok (.var name) → ∀ f, cx.held i ≠ some (.error f)
  overloads : ∀ i name args, P i → cx.arena.kind i = .ok (.call name args) →
    ∃ found, cx.overloads i name = .ok found

theorem faultless_variableType {id : NodeId} (h : ∀ f, cx.held id ≠ some (.error f))
    (name : String) (span : Span) : Faultless cx (variableType id name span) := by
  intro s f
  rw [outcome_variableType]
  rcases hheld : cx.held id with _ | (g | _ | ty)
  · exact nofun
  · exact absurd hheld (h g)
  · exact nofun
  · exact nofun

theorem faultless_fieldType {record : String} {found : Option (List Field)}
    (h : cx.table.lookupRecord record = .ok found) (name : String) (span : Span) :
    Faultless cx (fieldType record name span) := by
  refine faultless_read (faultless_bind (faultless_lift h) fun fields => ?_)
  split
  · exact faultless_fail _ _
  · split
    · exact faultless_pure _
    · exact faultless_fail _ _

section Parts

variable {check : Checker}

theorem faultless_argumentTypes {args : List NodeId}
    (hnode : ∀ arg ∈ args, ∃ k, cx.arena.kind arg = .ok k)
    (h : ∀ arg ∈ args, ∀ e, Faultless cx (check arg e)) :
    Faultless cx (argumentTypes check args) := by
  refine faultless_mapM fun arg harg => ?_
  obtain ⟨k, hk⟩ := hnode arg harg
  exact faultless_bind (faultless_node hk) fun _ => faultless_ite (faultless_pure _)
    (faultless_bind (h arg harg none) fun _ => faultless_pure _)

theorem faultless_allFit {args : List (NodeId × Option Ty)} {params : List Binder}
    (h : ∀ p ∈ args, ∀ e, Faultless cx (check p.1 e)) :
    Faultless cx (allFit check args params) := by
  induction args generalizing params with
  | nil => exact faultless_pure _
  | cons arg args ih =>
    cases params with
    | nil => exact faultless_pure _
    | cons param params =>
      have hfits : Faultless cx (fits check param.ty arg) := by
        obtain ⟨arg, _ | ty⟩ := arg
        · exact faultless_bind (faultless_attempt (h (arg, none) (.head _) _)) fun _ =>
            faultless_pure _
        · exact faultless_pure _
      exact faultless_bind hfits fun _ => faultless_ite (ih fun p hp => h p (.tail _ hp))
        (faultless_pure _)

theorem faultless_choose {args : List (NodeId × Option Ty)} {expected : Option Ty}
    {overloads : List Signature} (h : ∀ p ∈ args, ∀ e, Faultless cx (check p.1 e)) :
    Faultless cx (choose check args expected overloads) := by
  induction overloads with
  | nil => exact faultless_pure _
  | cons candidate rest ih =>
    exact faultless_ite ih (faultless_ite ih
      (faultless_bind (faultless_allFit h) fun _ => faultless_ite (faultless_pure _) ih))

theorem faultless_describe {args : List (NodeId × Option Ty)}
    (h : ∀ p ∈ args, ∀ e, Faultless cx (check p.1 e)) : Faultless cx (describe check args) := by
  refine faultless_mapM fun p hp => ?_
  obtain ⟨arg, _ | ty⟩ := p
  · exact faultless_attempt (h _ hp none)
  · exact faultless_pure _

theorem faultless_settle {args : List (NodeId × Option Ty)} {params : List Binder}
    (hnode : ∀ p ∈ args, ∃ k, cx.arena.kind p.1 = .ok k)
    (h : ∀ p ∈ args, ∀ e, Faultless cx (check p.1 e)) :
    Faultless cx (settle check args params) := by
  induction args generalizing params with
  | nil => exact faultless_pure _
  | cons arg args ih =>
    cases params with
    | nil => exact faultless_pure _
    | cons param params =>
      have hrest : Faultless cx (settle check args params) :=
        ih (fun p hp => hnode p (.tail _ hp)) fun p hp => h p (.tail _ hp)
      have hplace {c : Prop} [Decidable c] (cause : SemanticError.Cause) (span : Span) :
          Faultless cx (if c then (do fail cause span; settle check args params)
            else settle check args params) :=
        faultless_ite (faultless_bind (faultless_fail _ _) fun _ => hrest) hrest
      obtain ⟨k, hk⟩ := hnode arg (.head _)
      exact faultless_bind (faultless_node hk) fun n =>
        faultless_ite (faultless_bind (h arg (.head _) _) fun _ => hplace _ _) (hplace _ _)

theorem faultless_checkCall {id : NodeId} {span : Span} {name : String} {args : List NodeId}
    {expected : Option Ty} (hoverloads : ∃ found, cx.overloads id name = .ok found)
    (hnode : ∀ arg ∈ args, ∃ k, cx.arena.kind arg = .ok k)
    (h : ∀ arg ∈ args, ∀ e, Faultless cx (check arg e)) :
    Faultless cx (checkCall check id span name args expected) := by
  obtain ⟨found, hfound⟩ := hoverloads
  refine faultless_read (faultless_bind (faultless_lift hfound) fun overloads => ?_)
  refine faultless_bind_of (faultless_argumentTypes hnode h) fun s typed s' htyped => ?_
  have hmem : ∀ p ∈ typed, p.1 ∈ args := by
    intro p hp
    obtain ⟨arg, harg, hp, -⟩ := Outcome.exists_of_forall₂_right (argumentTypes_cases htyped) hp
    exact hp ▸ harg
  have hargs : ∀ p ∈ typed, ∀ e, Faultless cx (check p.1 e) := fun p hp => h p.1 (hmem p hp)
  refine faultless_bind (faultless_choose hargs) fun chosen => ?_
  cases chosen with
  | none => exact faultless_bind (faultless_describe hargs) fun _ => faultless_fail _ _
  | some sig =>
    exact faultless_bind (faultless_settle (fun p hp => hnode p.1 (hmem p hp)) hargs) fun _ =>
      faultless_bind (faultless_setTarget _ _) fun _ => faultless_pure _

/-- One level of an expression, whose parts do not fault. -/
theorem faultless_checkKind {P : Nat → Prop} {id : Nat} {expected : Option Ty} {n : Node}
    (hread : cx.Readable P) (hid : P id) (hk : cx.arena.kind id = .ok n.kind)
    (hnode : ∀ c ∈ n.kind.children, ∃ k, cx.arena.kind c = .ok k)
    (h : ∀ c ∈ n.kind.children, ∀ e, Faultless cx (check c e)) :
    Faultless cx (checkKind check id expected n) := by
  obtain ⟨k, span⟩ := n
  cases k with
  | var name => exact faultless_variableType (hread.held id name hid hk) _ _
  | field base name =>
    refine faultless_bind (h base (.head _) _) fun found => ?_
    split
    · next record =>
      obtain ⟨fields, hfields⟩ := hread.records record
      exact faultless_fieldType hfields _ _
    · exact faultless_fail _ _
  | element base index =>
    refine faultless_bind (h base (.head _) _) fun found => ?_
    split
    · obtain ⟨k, hk⟩ := hnode index (.tail _ (.head _))
      exact faultless_bind (h index (.tail _ (.head _)) _) fun _ => faultless_ite
        (faultless_bind (faultless_node hk) fun _ =>
          faultless_bind (faultless_fail _ _) fun _ => faultless_pure _) (faultless_pure _)
    · exact faultless_fail _ _
  | unary op operand =>
    refine faultless_bind (h operand (.head _) _) fun found => ?_
    split
    · exact faultless_fail _ _
    · obtain ⟨k, hk⟩ := hnode operand (.head _)
      exact faultless_bind (faultless_node hk) fun _ =>
        faultless_ite (faultless_bind (faultless_fail _ _) fun _ => faultless_pure _)
          (faultless_pure _)
  | binary op left right =>
    refine faultless_bind (h left (.head _) _) fun l =>
      faultless_bind (h right (.tail _ (.head _)) _) fun r => ?_
    split
    · exact faultless_fail _ _
    · exact faultless_pure _
  | call name args => exact faultless_checkCall (hread.overloads id name args hid hk) hnode h
  | _ => exact faultless_pure _

end Parts

theorem faultless_checkExpression {P : Nat → Prop} {depth id : Nat} (hread : cx.Readable P)
    (hP : ∀ i, cx.arena.Below id i → P i) (hdepth : cx.arena.Within depth id)
    (expected : Option Ty) : Faultless cx (checkExpression depth id expected) := by
  induction depth generalizing id expected with
  | zero => exact absurd hdepth Arena.not_within_zero
  | succ depth ih =>
    obtain ⟨k, hk⟩ := hdepth.kind
    refine faultless_bind_of (faultless_node hk) fun s n s' hn => ?_
    obtain ⟨hn, -⟩ := succeeds_node.1 hn
    have hkind : cx.arena.kind id = .ok n.kind := Arena.kind_eq_ok_iff.2 ⟨n.span, hn⟩
    refine faultless_bind (faultless_checkKind hread (hP id (.self id)) hkind
      (fun c hc => ?_) fun c hc e => ?_) fun ty =>
      faultless_bind (faultless_setType id ty) fun _ => faultless_pure _
    · exact (hdepth.child hkind hc).kind
    · exact ih (fun i hi => hP i (.child hkind hc hi)) (hdepth.child hkind hc) e

theorem faultless_checkRoot {P : Nat → Prop} {lo id : Nat} (hread : cx.Readable P)
    (hP : ∀ i, cx.arena.Below id i → P i) (htree : cx.arena.Tree lo id) (expected : Option Ty) :
    Faultless cx (checkRoot id expected) :=
  faultless_read (faultless_checkExpression hread hP htree.within expected)

end Typing

/-- Bound programs are readable in the bodies of their functions. -/
theorem Arena.readable_of_bind {a : Arena} {u : UnitNode} {table : SymbolTable}
    {info : SemanticInfo}
    (hu : a.unit? = some u) (hspread : a.Spread u) (hbind : a.bind {} = (.ok (), table, info)) :
    (∀ name, ∃ found, table.lookupRecord name = .ok found) ∧
    ∀ d ∈ u.functions, ∀ f, a.kind d = .ok (.function f) → ∀ r ∈ f.body, ∀ i, a.Below r i →
      (∀ name, a.kind i = .ok (.var name) →
        ∃ ty, (a.context table info).held i = some (.ok (some ty))) ∧
      ∀ name args, a.kind i = .ok (.call name args) → (a.context table info).overloads i name =
        .ok (Binding.overloadSet (Builtin.overloads ++ a.overloads u.functions) name) := by
  obtain ⟨s, hbound, horder, rfl, hscopes, hresolved⟩ := Arena.unitBound_of_bind hu hspread hbind
  obtain ⟨g, hg, -⟩ := hbound.level.table.root
  refine ⟨fun name => ⟨_, hbound.level.table.linked.lookupRecord_eq hg name⟩, ?_⟩
  intro d hd f hf r hr i hi
  obtain ⟨j, hj⟩ := List.mem_iff_getElem?.1 hd
  have hsettled := hbound.settled j d f hj hf
  refine ⟨fun name hk => ?_, fun name args hk => ?_⟩
  · obtain ⟨e, x, hrow, hx, -, hvar⟩ := hsettled.resolves r hr i name hi hk
    obtain ⟨ty, ref, cls, d', hm⟩ : ∃ ty ref cls d', x.meaning = .var ty ref cls d' := by
      rcases hvar with hmem | ⟨-, ty, ref, d', hm⟩
      · obtain ⟨d', -, hnearest⟩ := Arena.nearest_of_mem (u := u) hmem
        generalize x.meaning = m at hnearest
        cases hnearest <;> exact ⟨_, _, _, _, rfl⟩
      · exact ⟨ty, ref, _, d', hm⟩
    refine ⟨ty, ?_⟩
    simp only [Typing.Context.held, Arena.context, ← hresolved, hrow, Option.map_some, hx,
      Except.map, hm]
  · have hmark := hsettled.marked r hr i _ hi hk (.inl rfl)
    simp only [Typing.Context.overloads, Arena.context, ← hscopes, hmark, Option.getD_some]
    exact hbound.lookupFunction horder hj hf name

end MiniJ
