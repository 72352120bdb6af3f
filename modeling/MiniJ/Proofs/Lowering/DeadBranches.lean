import MiniJ.Proofs.Arena.Replace
import MiniJ.Proofs.Lowering.Generation
import MiniJ.Proofs.Lowering.Slots
import MiniJ.Proofs.Lowering.Tandem
import MiniJ.Proofs.Typing.Resolution

/-!
# Dead branches

A literal condition decides which side of a statement runs. The side that never runs has no code,
but the layout of frames still walks over it. It declares no locals, and the references it passes
matter only where a register parameter would need an address. So it may be cut off.

## Main definitions

* `Arena.Folds` — a literal condition decides what runs at a node.
* `Pruned` — a list from which some elements were dropped.

## Main statements

* `Arena.Folds.exists_preorder` — a walk visits the same nodes, up to those that never run.
* `Accepted.dead_branch_dropped` — code generation does not notice that a dead branch is cut off.
-/
namespace MiniJ

open Outcome

/-! ### Lists from which elements are dropped -/

/-- The second list is the first without some elements that satisfy `P`. -/
inductive Pruned {α : Type} (P : α → Prop) : List α → List α → Prop
  | nil : Pruned P [] []
  | keep (x : α) {xs ys : List α} (h : Pruned P xs ys) : Pruned P (x :: xs) (x :: ys)
  | drop {x : α} {xs ys : List α} (hx : P x) (h : Pruned P xs ys) : Pruned P (x :: xs) ys

namespace Pruned

variable {α β ε : Type} {P Q : α → Prop} {R : β → Prop} {xs ys zs ws : List α}

theorem refl (xs : List α) : Pruned P xs xs := by
  induction xs with
  | nil => exact .nil
  | cons x xs ih => exact .keep x ih

theorem nil_of_forall (h : ∀ x ∈ xs, P x) : Pruned P xs [] := by
  induction xs with
  | nil => exact .nil
  | cons x xs ih => exact .drop (h x (by simp)) (ih fun y hy => h y (by simp [hy]))

theorem mono (h : Pruned P xs ys) (hPQ : ∀ x, P x → Q x) : Pruned Q xs ys := by
  induction h with
  | nil => exact .nil
  | keep x _ ih => exact .keep x ih
  | drop hx _ ih => exact .drop (hPQ _ hx) ih

theorem append (h : Pruned P xs ys) (h' : Pruned P zs ws) : Pruned P (xs ++ zs) (ys ++ ws) := by
  induction h with
  | nil => exact h'
  | keep x _ ih => exact .keep x ih
  | drop hx _ ih => exact .drop hx ih

theorem mem_iff (h : Pruned P xs ys) {x : α} (hx : ¬P x) : x ∈ xs ↔ x ∈ ys := by
  induction h with
  | nil => exact Iff.rfl
  | keep y _ ih => simp only [List.mem_cons, ih]
  | @drop y _ _ hy _ ih =>
    have hne : x ≠ y := fun heq => hx (heq ▸ hy)
    simp only [List.mem_cons, hne, false_or, ih]

theorem eq_of_forall_not (h : Pruned P xs ys) (hP : ∀ x, ¬P x) : xs = ys := by
  induction h with
  | nil => rfl
  | keep x _ ih => rw [ih]
  | drop hx _ _ => exact absurd hx (hP _)

/-- What elements are turned into is pruned if it is for every element that is kept, and if nothing
else comes from those that are dropped. -/
theorem exists_mapM_flatten {f g : α → Except ε (List β)} {lists : List (List β)}
    (h : Pruned P xs ys) (hf : xs.mapM f = .ok lists)
    (hkeep : ∀ x ∈ xs, ∀ l, f x = .ok l → ∃ l', g x = .ok l' ∧ Pruned R l l')
    (hdrop : ∀ x ∈ xs, P x → ∀ l, f x = .ok l → ∀ v ∈ l, R v) :
    ∃ lists', ys.mapM g = .ok lists' ∧ Pruned R lists.flatten lists'.flatten := by
  rw [mapM_eq_ok] at hf
  induction h generalizing lists with
  | nil =>
    cases hf
    exact ⟨[], rfl, .nil⟩
  | keep x h ih =>
    obtain ⟨l, rest, hl, hrest, rfl⟩ := List.forall₂_cons_left_iff.1 hf
    obtain ⟨l', hl', hpruned⟩ := hkeep x (by simp) l hl
    obtain ⟨rest', hrest', hpruned'⟩ := ih hrest (fun y hy => hkeep y (by simp [hy]))
      fun y hy => hdrop y (by simp [hy])
    refine ⟨l' :: rest', ?_, hpruned.append hpruned'⟩
    rw [mapM_eq_ok] at hrest' ⊢
    exact .cons hl' hrest'
  | drop hx h ih =>
    obtain ⟨l, rest, hl, hrest, rfl⟩ := List.forall₂_cons_left_iff.1 hf
    obtain ⟨rest', hrest', hpruned'⟩ := ih hrest (fun y hy => hkeep y (by simp [hy]))
      fun y hy => hdrop y (by simp [hy])
    exact ⟨rest', hrest', (nil_of_forall (hdrop _ (by simp) hx l hl)).append hpruned'⟩

end Pruned

/-! ### Branches that are decided -/

namespace Arena

variable {a : Arena} {id x d : NodeId} {k : NodeKind} {live dead : List NodeId}

/-- A literal condition decides what runs at a node: only `live`, and never `dead`. -/
inductive Folds (a : Arena) (id : NodeId) : List NodeId → List NodeId → Prop
  | onTrue {condition onTrue : NodeId} {onFalse : Option NodeId}
      (kind : a.kind id = .ok (.branch condition onTrue onFalse))
      (literal : a.kind condition = .ok (.bool true)) : Folds a id [onTrue] onFalse.toList
  | onFalse {condition onTrue : NodeId} {onFalse : Option NodeId}
      (kind : a.kind id = .ok (.branch condition onTrue onFalse))
      (literal : a.kind condition = .ok (.bool false)) : Folds a id onFalse.toList [onTrue]
  | never {condition body : NodeId} (kind : a.kind id = .ok (.loop condition body))
      (literal : a.kind condition = .ok (.bool false)) : Folds a id [] [body]

theorem Folds.isContainer (h : a.Folds id live dead) :
    ∃ k, a.kind id = .ok k ∧ k.isContainer = true ∧ ∀ u, k ≠ .unit u := by
  cases h <;> exact ⟨_, by assumption, rfl, by simp⟩

theorem Folds.alike (h : a.Folds id live dead) : a.Alike (a.replace id (.block live)) := by
  obtain ⟨k, hk, hcontainer, -⟩ := h.isContainer
  exact alike_replace hk hcontainer rfl

theorem Folds.kind_replace (h : a.Folds id live dead) :
    (a.replace id (.block live)).kind id = .ok (.block live) := by
  obtain ⟨k, hk, -⟩ := h.isContainer
  obtain ⟨span, hnode⟩ := kind_eq_ok_iff.1 hk
  exact kind_eq_ok_iff.2 ⟨span, node_replace_self hnode⟩

theorem Folds.unit?_replace (h : a.Folds id live dead) :
    (a.replace id (.block live)).unit? = a.unit? := by
  by_cases hid : NodeId.root = id
  · subst hid
    obtain ⟨k, hk, -, hunit⟩ := h.isContainer
    obtain ⟨span, hnode⟩ := kind_eq_ok_iff.1 hk
    have hreplaced := node_eq_ok_iff.1 (node_replace_self (k := .block live) hnode)
    rw [unit?, hreplaced, unit?, node_eq_ok_iff.1 hnode]
    split
    · next heq => simp at heq
    · split
      · next u _ heq => exact absurd (congrArg Node.kind (Option.some.inj heq)) (hunit u)
      · rfl
  · rw [unit?, node?_replace_of_ne hid, unit?]

/-! ### Walks -/

/-- The children of a node stay, apart from the literal and what never runs. -/
theorem Folds.exists_kind (h : a.Folds id live dead) (hk : a.kind x = .ok k) :
    ∃ k', (a.replace id (.block live)).kind x = .ok k' ∧
      Pruned (fun c => (x = id ∧ c ∈ dead) ∨ ∃ b, a.kind c = .ok (.bool b))
        k.children k'.children := by
  by_cases hx : x = id
  · subst hx
    refine ⟨_, h.kind_replace, ?_⟩
    cases h with
    | onTrue kind literal =>
      cases hk.symm.trans kind
      exact .drop (.inr ⟨_, literal⟩) (.keep _ (.nil_of_forall fun c hc => .inl ⟨rfl, hc⟩))
    | onFalse kind literal =>
      cases hk.symm.trans kind
      exact .drop (.inr ⟨_, literal⟩) (.drop (.inl ⟨rfl, by simp⟩) (.refl _))
    | never kind literal =>
      cases hk.symm.trans kind
      exact .drop (.inr ⟨_, literal⟩) (.drop (.inl ⟨rfl, by simp⟩) .nil)
  · exact ⟨k, (kind_replace_of_ne hx).trans hk, .refl _⟩

/-- A node below `root` is cut off: it is a literal, or it is on the side of `id` that never
runs. -/
def CutOff (a : Arena) (id : NodeId) (dead : List NodeId) (root x : NodeId) : Prop :=
  (∃ b, a.kind x = .ok (.bool b)) ∨ a.Below root id ∧ ∃ d ∈ dead, a.Below d x

theorem below_literal {b : Bool} (hk : a.kind d = .ok (.bool b)) (h : a.Below d x) : x = d := by
  cases h with
  | self => rfl
  | child kind mem _ =>
    cases hk.symm.trans kind
    cases mem

/-- A walk visits the same nodes in the same order, up to those that are cut off. -/
theorem Folds.exists_preorder (h : a.Folds id live dead) {depth : Nat} {root : NodeId}
    {ids : List NodeId} (hwalk : a.preorder depth root = .ok ids) :
    ∃ ids', (a.replace id (.block live)).preorder depth root = .ok ids' ∧
      Pruned (a.CutOff id dead root) ids ids' := by
  induction depth generalizing root ids with
  | zero => cases hwalk
  | succ depth ih =>
    simp only [preorder, bind_eq_ok, pure_eq_ok] at hwalk
    obtain ⟨k, hk, lists, hlists, rfl⟩ := hwalk
    obtain ⟨k', hk', hchildren⟩ := h.exists_kind hk
    obtain ⟨lists', hlists', hpruned⟩ : ∃ lists',
        k'.children.mapM ((a.replace id (.block live)).preorder depth) = .ok lists' ∧
          Pruned (a.CutOff id dead root) lists.flatten lists'.flatten := by
      refine hchildren.exists_mapM_flatten hlists (fun c hc l hl => ?_)
        fun c hc hcut l hl x hx => ?_
      · obtain ⟨l', hl', hpruned⟩ := ih hl
        exact ⟨l', hl', hpruned.mono fun x => .imp_right (.imp_left (.child hk hc))⟩
      · have hbelow := (mem_preorder hl x).1 hx
        rcases hcut with ⟨rfl, hdead⟩ | ⟨b, hliteral⟩
        · exact .inr ⟨.self _, c, hdead, hbelow⟩
        · rw [below_literal hliteral hbelow]
          exact .inl ⟨b, hliteral⟩
    refine ⟨root :: lists'.flatten, ?_, .keep root hpruned⟩
    simp only [preorder, bind_eq_ok, pure_eq_ok]
    exact ⟨k', hk', lists', hlists', rfl⟩

theorem Folds.exists_walk (h : a.Folds id live dead) {root : NodeId} {ids : List NodeId}
    (hwalk : a.walk root = .ok ids) : ∃ ids', (a.replace id (.block live)).walk root = .ok ids' ∧
      Pruned (a.CutOff id dead root) ids ids' := by
  rw [walk, ← h.alike.depthLimit]
  exact h.exists_preorder hwalk

theorem Folds.below_dead (h : a.Folds id live dead) (hd : d ∈ dead) : a.Below id d := by
  cases h with
  | onTrue kind => exact .child kind (.tail _ (.tail _ hd)) (.self d)
  | onFalse kind =>
    obtain rfl := List.mem_singleton.1 hd
    exact .child kind (.tail _ (.head _)) (.self d)
  | never kind =>
    obtain rfl := List.mem_singleton.1 hd
    exact .child kind (.tail _ (.head _)) (.self d)

/-- What never runs declares no locals. -/
theorem Folds.not_declare (h : a.Folds id live dead) {lo fid : Nat} {f : FunctionNode}
    {r l : NodeId}
    (htree : a.Tree lo fid) (hf : a.kind fid = .ok (.function f)) (hfirst : a.LocalsFirst f.body)
    (hr : r ∈ f.body) (hid : a.Below r id) (hd : d ∈ dead) (hx : a.Below d x) :
    a.kind x ≠ .ok (.declare l) := by
  obtain ⟨locals, rest, hbody, hlocals, hrest⟩ := hfirst
  rw [hbody, List.mem_append] at hr
  rcases hr with hr | hr
  · -- a declaration has no statement in it
    exfalso
    obtain ⟨k, hk, hcontainer, -⟩ := h.isContainer
    obtain ⟨l, hl⟩ := hlocals r hr
    obtain ⟨start, hsub, -⟩ := htree.child hf (List.mem_append_right _
      (hbody ▸ List.mem_append_left _ hr))
    have hroles := hsub.roles hl
    simp only [NodeKind.partRoles, NodeKind.children, List.forall₂_cons] at hroles
    obtain ⟨b, hb⟩ := hroles.1.isDeclaration
    cases hid with
    | self =>
      cases hl.symm.trans hk
      cases hcontainer
    | child kind mem hbelow =>
      cases hl.symm.trans kind
      obtain rfl := List.mem_singleton.1 mem
      cases hbelow with
      | self =>
        cases hb.symm.trans hk
        cases hcontainer
      | child kind mem _ =>
        cases hb.symm.trans kind
        cases mem
  · exact hrest r hr x l (hid.trans ((h.below_dead hd).trans hx))

end Arena

/-! ### Frames -/

namespace Frame

variable {a a' : Arena} {info : SemanticInfo} {table : SymbolTable} {id : NodeId}
  {live dead : List NodeId} {f : FunctionNode}

theorem matches_replace (h : a.Folds id live dead) :
    Matches a (a.replace id (.block live)) info info table table :=
  ⟨h.alike, rfl, fun _ _ _ => rfl, rfl⟩

/-- A statement keeps its locals. -/
theorem localsOf_replace (h : a.Folds id live dead) {r : NodeId} {ids : List NodeId}
    (hids : localsOf a r = .ok ids)
    (hdead : a.Below r id → ∀ d ∈ dead, ∀ x, a.Below d x → ∀ l, a.kind x ≠ .ok (.declare l)) :
    localsOf (a.replace id (.block live)) r = .ok ids := by
  rw [localsOf_eq_flatten] at hids ⊢
  simp only [bind_eq_ok, pure_eq_ok] at hids ⊢
  obtain ⟨nodes, hnodes, lists, hlists, rfl⟩ := hids
  obtain ⟨nodes', hnodes', hpruned⟩ := h.exists_walk hnodes
  have hdeclared : declaredAt (a.replace id (.block live)) = declaredAt a := by
    funext x
    exact (declaredAt_eq h.alike x).symm
  obtain ⟨lists', hlists', hflat⟩ := hpruned.exists_mapM_flatten (R := fun _ => False) hlists
    (fun x _ l hl => ⟨l, hl, .refl l⟩) fun x _ hcut l hl v hv => by
      obtain ⟨k, hk, hdeclares⟩ := bind_eq_ok.1 hl
      cases pure_eq_ok.1 hdeclares
      cases k with
      | declare l =>
        rcases hcut with ⟨b, hliteral⟩ | ⟨hid, d, hd, hx⟩
        · cases hk.symm.trans hliteral
        · exact hdead hid d hd x hx l hk
      | _ => cases hv
  exact ⟨nodes', hnodes', lists', hdeclared ▸ hlists', (hflat.eq_of_forall_not fun _ h => h).symm⟩

/-- Some call below one of these nodes passes the variable of a declaration by reference. -/
def PassedBelow (a : Arena) (info : SemanticInfo) (table : SymbolTable) (roots : List NodeId)
    (p : NodeId) : Prop :=
  ∃ r ∈ roots, ∃ x, a.Below r x ∧ PassedAt a info table x p

/-- A statement passes the same variables by reference, up to those on the side that never runs. -/
theorem takenIn_replace (h : a.Folds id live dead) {r : NodeId} {found : List NodeId}
    (hfound : takenIn a info table r = .ok found) :
    ∃ found', takenIn (a.replace id (.block live)) info table r = .ok found' ∧
      Pruned (fun p => a.Below r id ∧ PassedBelow a info table dead p) found found' := by
  simp only [takenIn, bind_eq_ok, pure_eq_ok] at hfound ⊢
  obtain ⟨nodes, hnodes, lists, hlists, rfl⟩ := hfound
  obtain ⟨nodes', hnodes', hpruned⟩ := h.exists_walk hnodes
  obtain ⟨lists', hlists', hflat⟩ := hpruned.exists_mapM_flatten
    (R := fun p => a.Below r id ∧ PassedBelow a info table dead p) hlists
    (fun x _ l hl => ⟨l, (matches_replace h).takenAt x ▸ hl, .refl l⟩) fun x _ hcut l hl p hp => by
      have hpassed := (mem_takenAt_iff hl).1 hp
      rcases hcut with ⟨b, hliteral⟩ | ⟨hid, d, hd, hx⟩
      · obtain ⟨name, args, _, _, hcall, -⟩ := hpassed
        cases hcall.symm.trans hliteral
      · exact ⟨hid, d, hd, x, hx, hpassed⟩
  exact ⟨lists'.flatten, ⟨nodes', hnodes', lists', hlists', rfl⟩, hflat⟩

/-- The frame of a function stays the same if the side that never runs passes none of its parameters
by reference. -/
theorem layout_replace {u : UnitNode} {fid : NodeId} (h : a.Folds id live dead)
    (hprogram : CheckedProgram a u table info) (hfid : fid ∈ u.functions)
    (hf : a.kind fid = .ok (.function f)) (hfirst : a.LocalsFirst f.body)
    (hpassed : (∃ r ∈ f.body, a.Below r id) → ∀ p ∈ f.params, ¬PassedBelow a info table dead p) :
    layout (a.replace id (.block live)) info table f = layout a info table f := by
  have hmatches : Matches a (a.replace id (.block live)) info info table table := matches_replace h
  obtain ⟨-, start, htree⟩ := hprogram.layout.function_tree hfid
  have hbody : ∀ r ∈ f.body, ∃ lo, a.Tree lo r := fun r hr => by
    obtain ⟨lo, hlo, -⟩ := htree.child hf (List.mem_append_right _ hr)
    exact ⟨lo, hlo⟩
  obtain ⟨taken, htaken⟩ : ∃ taken, f.body.mapM (takenIn a info table) = .ok taken :=
    exists_mapM fun r hr => exists_takenIn hprogram hfid hf hr (hbody r hr).choose_spec
  obtain ⟨taken', htaken', hpruned⟩ :=
    (Pruned.refl (P := fun _ => False) f.body).exists_mapM_flatten
    (R := fun p => (∃ r ∈ f.body, a.Below r id) ∧ PassedBelow a info table dead p) htaken
    (fun r hr l hl => by
      obtain ⟨l', hl', hl''⟩ := takenIn_replace h hl
      exact ⟨l', hl', hl''.mono fun p hp => ⟨⟨r, hr, hp.1⟩, hp.2⟩⟩) fun _ _ hfalse => hfalse.elim
  have hcontains : ∀ p ∈ f.params, taken.flatten.contains p = taken'.flatten.contains p := by
    intro p hp
    have hmem := hpruned.mem_iff (x := p) fun ⟨hid, hbelow⟩ => hpassed hid p hp hbelow
    simp only [List.contains_eq_mem, hmem]
  obtain ⟨lists, hlists⟩ : ∃ lists, f.body.mapM (localsOf a) = .ok lists :=
    exists_mapM fun r hr => exists_localsOf (hbody r hr).choose_spec
  obtain ⟨lists', hlists', hlocals⟩ :=
    (Pruned.refl (P := fun _ => False) f.body).exists_mapM_flatten
    (g := localsOf (a.replace id (.block live))) (R := fun _ => False) hlists
    (fun r hr l hl => ⟨l, localsOf_replace h hl fun hid d hd x hx _ =>
      h.not_declare htree hf hfirst hr hid hd hx, .refl l⟩) fun _ _ hfalse => hfalse.elim
  have hlocal : addLocal (a.replace id (.block live)) table = addLocal a table :=
    funext fun g => funext fun x => (hmatches.addLocal g x).symm
  simp only [layout, htaken, htaken', lift_ok, ok_bind, ← hmatches.addParameters hcontains,
    foldlM_addLocals hlists, foldlM_addLocals hlists', hlocal, hlocals.eq_of_forall_not fun _ h =>
      h]

end Frame

/-! ### Code -/

namespace Gen

variable {cx cx' : Context} {id : NodeId}

/-- Two contexts that differ in containers only look the same to code generation. -/
theorem Context.Matches.of_alike {a' : Arena} (h : cx.arena.Alike a') :
    cx.Matches { cx with arena := a' } where
  arena := h
  typeOf := rfl
  callTarget := rfl
  slotOf id _ _ := by
    refine tandem_context ?_
    dsimp only
    split
    · exact tandem_unsupported h _
    · refine tandem_bind (tandem_lift rfl) fun entry => ?_
      split
      · exact tandem_pure _
      · split
        · exact tandem_pure _
        · exact tandem_unsupported h _
      · exact tandem_unsupported h _
  sizeOf := rfl
  field := rfl
  fields := rfl
  recordDepth := rfl
  labels _ := rfl
  frame := rfl
  isEntry := rfl

/-- Nothing is done behind `x`. -/
theorem tandem_bind_pure {x y : Gen PUnit} (h : Tandem cx cx' x y) :
    Tandem cx cx' x (y >>= fun _ => pure ⟨⟩) := by
  intro s
  change x cx s = Gen.bind y _ cx' s
  rw [h s, Gen.bind]
  cases y cx' s with
  | error e => rfl
  | ok o =>
    change Except.ok o = Except.ok ⟨⟨⟩, o.code ++ [], o.state⟩
    rw [List.append_nil]

end Gen

namespace Lowering

open Gen

variable {cx : Context} {id : NodeId} {live dead : List NodeId}

/-- What is lowered in place of a statement of which one side never runs. -/
theorem tandem_folds (h : cx.arena.Folds id live dead) {lower : Lowering}
    {statement statement' : NodeId → Gen Unit} {cx' : Context}
    (hstatement : TandemStatements cx cx' statement statement') :
    Gen.Tandem cx cx' (kind id >>= statementOf lower statement id) (live.forM statement') := by
  intro s
  cases h with
  | onTrue kind literal =>
    rw [kind_bind_apply _ kind]
    change (Gen.kind _ >>= _) cx s = _
    rw [kind_bind_apply _ literal]
    exact tandem_bind_pure (hstatement _) s
  | onFalse kind literal =>
    rw [kind_bind_apply _ kind]
    change (Gen.kind _ >>= _) cx s = _
    rw [kind_bind_apply _ literal]
    exact tandem_forM (fun s _ => hstatement s) s
  | never kind literal =>
    rw [kind_bind_apply _ kind]
    change (Gen.kind _ >>= _) cx s = _
    rw [kind_bind_apply _ literal]
    rfl

/-- Statements are lowered in the same way when a side that never runs is cut off. -/
theorem tandem_statement_replace {cx' : Context} (h : cx.arena.Folds id live dead)
    (hcx : cx' = { cx with arena := cx.arena.replace id (.block live) }) (depth : Nat) :
    TandemStatements cx cx' (Lowering.statement (ofArena cx.arena) depth)
      (Lowering.statement (ofArena cx'.arena) depth) := by
  have hmatches : cx.Matches cx' := hcx ▸ .of_alike h.alike
  have hkind : cx'.arena.kind id = .ok (.block live) := hcx ▸ h.kind_replace
  have hsame : ∀ x, x ≠ id → cx.arena.node x = cx'.arena.node x := fun x hx =>
    hcx ▸ (Arena.node_replace_of_ne hx).symm
  clear hcx
  induction depth with
  | zero => exact fun x => tandem_fail _
  | succ depth ih =>
    intro x
    rw [statement_succ, statement_succ]
    by_cases hx : x = id
    · subst hx
      intro s
      rw [kind_bind_apply _ hkind]
      exact tandem_folds h ih s
    · refine tandem_bind (tandem_kind (hsame x hx)) fun k => ?_
      exact tandem_statementOf hmatches (tandem_ofArena hmatches) ih k

theorem functionBody_replace {cx' : Context} (h : cx.arena.Folds id live dead)
    (hcx : cx' = { cx with arena := cx.arena.replace id (.block live) }) (label : String)
    (f : FunctionNode) : Gen.Tandem cx cx' (functionBody label f) (functionBody label f) :=
  tandem_functionBody (hcx ▸ .of_alike h.alike) label f (tandem_statement_replace h hcx)

/-- A function has the same code, or none for the same reason, when a side that never runs is cut
off. -/
theorem function_replace {a : Arena} {info : SemanticInfo} {table : SymbolTable} {f : FunctionNode}
    (h : a.Folds id live dead)
    (hlayout : Frame.layout (a.replace id (.block live)) info table f = Frame.layout a info table f)
    (labels : List (NodeId × String)) (texts : List String) (label : String) :
    function (a.replace id (.block live)) info table labels texts label f =
      function a info table labels texts label f := by
  have hbody : ∀ frame : Frame, functionBody label f
      ⟨a.replace id (.block live), info, table, labels, frame, label = entryLabel⟩
        { texts := texts } =
      functionBody label f ⟨a, info, table, labels, frame, label = entryLabel⟩
        { texts := texts } := by
    intro frame
    obtain ⟨cx, hcx⟩ : ∃ cx : Context, cx = ⟨a, info, table, labels, frame, label = entryLabel⟩ :=
      ⟨_, rfl⟩
    have hfolds : cx.arena.Folds id live dead := hcx ▸ h
    have htandem := functionBody_replace hfolds rfl label f { texts := texts }
    rw [hcx] at htandem
    exact htandem.symm
  simp only [function, hlayout, hbody]

end Lowering

namespace Arena.Folds

variable {a : Arena} {info : SemanticInfo} {table : SymbolTable} {id : NodeId}
  {live dead : List NodeId}

/-- Functions with the same frames come to the same code. -/
theorem foldlM_addFunction (h : a.Folds id live dead) {functions : List (NodeId × FunctionNode)}
    (hlayout : ∀ f ∈ functions,
      Frame.layout (a.replace id (.block live)) info table f.2 = Frame.layout a info table f.2)
    (labels : List (NodeId × String)) (out : Assembly) :
    functions.foldlM (Lowering.addFunction (a.replace id (.block live)) info table labels) out =
      functions.foldlM (Lowering.addFunction a info table labels) out := by
  induction functions generalizing out with
  | nil => rfl
  | cons f rest ih =>
    rw [List.foldlM_cons, List.foldlM_cons, Lowering.addFunction, Lowering.addFunction,
      Lowering.function_replace h (hlayout f (by simp))]
    congr 1
    funext out'
    exact ih (fun g hg => hlayout g (by simp [hg])) out'

end Arena.Folds

/-- A side that never runs, because of a literal condition, does not reach the output. If it passes
no parameter of the function around it by reference, the program in which it is cut off comes to the
same text, with the same labels, text constants and frames, or is rejected for the same reason. -/
theorem Accepted.dead_branch_dropped {a : Arena} {table : SymbolTable} {info : SemanticInfo}
    {id : NodeId} {live dead : List NodeId} (haccepted : Accepted a table info)
    (hfolds : a.Folds id live dead)
    (hpassed : ∀ d f, a.kind d = .ok (.function f) → (∃ r ∈ f.body, a.Below r id) →
      ∀ p ∈ f.params, ¬Frame.PassedBelow a info table dead p) :
    (a.replace id (.block live)).generate info table = a.generate info table := by
  obtain ⟨u, hu, hcomplete, hprogram⟩ := haccepted.complete
  obtain ⟨functions, hfunctions, hmembers, hkinds⟩ := hprogram.exists_functionsIn
  have hlayout : ∀ f ∈ functions, Frame.layout (a.replace id (.block live)) info table f.2 =
      Frame.layout a info table f.2 := by
    intro f hf
    have hmember : f.1 ∈ u.functions := hmembers ▸ List.mem_map_of_mem hf
    exact Frame.layout_replace hfolds hprogram hmember (hkinds f hf)
      (hcomplete.localsFirst _ hmember _ (hkinds f hf)) (hpassed f.1 f.2 (hkinds f hf))
  have hassemble : (a.replace id (.block live)).assemble info table = a.assemble info table := by
    simp only [Arena.assemble, hfolds.unit?_replace, hu, ← Lowering.global_eq hfolds.alike rfl,
      ← Lowering.functionsIn_eq hfolds.alike, hfunctions, lift_ok, ok_bind,
      hfolds.foldlM_addFunction hlayout]
  rw [Arena.generate, hassemble, Arena.generate]

/-! ### A program -/

namespace Folded

/-- A branch that never runs. It passes a local by reference, and it has no code: its sum needs more
registers than there are. -/
def words : List String :=
  ["void", "g", "(", "int", "&", "x", ")", "\x7b", "\x7d",
    "int", "f", "(", "int", "p", ")", "\x7b", "int", "y", ";",
    "if", "(", "false", ")", "\x7b", "g", "(", "y", ")", ";",
    "y", "=", "1", "+", "(", "1", "+", "(", "1", "+", "(", "1", "+", "(", "1", "+", "(", "1",
    "+", "1",
    ")", ")", ")", ")", ")", ";", "\x7d", "else", "y", "=", "p", ";", "return", "y", ";", "\x7d"]

def bytes : List UInt8 := words.flatMap fun w => w.toList.map (fun c => UInt8.ofNat c.toNat) ++ [32]

def program : Arena × SymbolTable × SemanticInfo := (accept? 2 bytes).get (by decide +kernel)

theorem accept?_bytes : accept? 2 bytes = some program := by
  rw [program, Option.some_get]

attribute [irreducible] program

theorem accepted : Accepted program.1 program.2.1 program.2.2 :=
  accepted_of_accept? accept?_bytes

/-- The branch, what its dead side passes by reference, and the parameters of the functions. -/
theorem nodes : (program.1.kind 31 = .ok (.branch 7 26 (some 30)) ∧
      program.1.kind 7 = .ok (.bool false)) ∧
    (Frame.takenIn program.1 program.2.2 program.2.1 26).toOption = some [5] ∧
    (∀ n ∈ program.1.nodes.toList, ∀ f ∈ n.kind.function?.toList, 5 ∉ f.params) ∧
    (program.1.generate program.2.2 program.2.1).toOption.isSome = true := by decide +kernel

/-- The program compiles as if there were only the other branch. -/
theorem branch_dropped : program.1.Folds 31 [30] [26] ∧
    (∀ d f, program.1.kind d = .ok (.function f) → (∃ r ∈ f.body, program.1.Below r 31) →
      ∀ p ∈ f.params, ¬Frame.PassedBelow program.1 program.2.2 program.2.1 [26] p) ∧
    (program.1.replace 31 (.block [30])).generate program.2.2 program.2.1 =
      program.1.generate program.2.2 program.2.1 ∧
    ∃ text, program.1.generate program.2.2 program.2.1 = .ok text := by
  obtain ⟨⟨hbranch, hliteral⟩, htaken, hparams, hgenerates⟩ := nodes
  have hfolds : program.1.Folds 31 [30] [26] := .onFalse hbranch hliteral
  have hpassed : ∀ d f, program.1.kind d = .ok (.function f) →
      (∃ r ∈ f.body, program.1.Below r 31) →
      ∀ p ∈ f.params, ¬Frame.PassedBelow program.1 program.2.2 program.2.1 [26] p := by
    rintro d f hf - p hp ⟨r, hr, x, hx, hpassed⟩
    obtain rfl := List.mem_singleton.1 hr
    have hfive := (Frame.mem_takenIn_iff (eq_ok_of_toOption htaken)).2 ⟨x, hx, hpassed⟩
    obtain rfl := List.mem_singleton.1 hfive
    obtain ⟨span, hnode⟩ := Arena.kind_eq_ok_iff.1 hf
    have hmem := Array.mem_of_getElem? (Arena.node?_eq_some_iff.1 (Arena.node_eq_ok_iff.1 hnode)).2
    exact hparams _ (Array.mem_toList_iff.2 hmem) f (by simp [NodeKind.function?]) hp
  exact ⟨hfolds, hpassed, accepted.dead_branch_dropped hfolds hpassed,
    _, ok_get_toOption hgenerates⟩

end Folded

end MiniJ
