import MiniJ.Lowering.Program
import MiniJ.Proofs.Arena.Alike
import MiniJ.Proofs.Arena.Coverage
import MiniJ.Proofs.Outcome

/-!
# Code generation side by side

Code generation looks at a program only through its nodes, its types, the storage of its variables,
the layout of its records and the labels of its functions. So two programs that look the same in
this way get the same code for a function, and the same failure where there is no code. Nodes that
hold statements or members have no code as expressions, whatever they hold: there they may differ.

## Main definitions

* `Gen.Tandem` — two parts of code generation do the same, each in its own context.
* `Gen.Context.Matches` — two programs that look the same to code generation.

## Main statements

* `Lowering.tandem_ofArena` — expressions and places.
* `Lowering.tandem_statementOf` — one level of a statement.
* `Lowering.tandem_functionBody` — functions, given their statements.
-/
namespace MiniJ

/-! ### Frames -/

/-- Declaration of the variable that a node was resolved to, if it was resolved to one. -/
def SemanticInfo.variableOf (info : SemanticInfo) (table : SymbolTable) (id : NodeId) :
    Except Fault (Option NodeId) :=
  match info.resolvedEntry id with
  | none => return none
  | some entry => do
    match (← table.entry entry).meaning with
    | .var _ _ _ declaration => return some declaration
    | _ => return none

namespace Frame

/-- The local that a node declares. -/
def declaredAt (a : Arena) (x : NodeId) : Except Fault (List NodeId) :=
  return (← a.kind x).declared?.toList

theorem localsOf_eq_flatten (a : Arena) (r : NodeId) :
    localsOf a r = (do return (← (← a.walk r).mapM (declaredAt a)).flatten) := by
  unfold localsOf
  congr 1
  funext nodes
  induction nodes with
  | nil => rfl
  | cons x xs ih =>
    simp only [List.mapM_cons, declaredAt, bind_assoc, pure_bind, List.flatten_cons] at ih ⊢
    congr 1
    funext k
    have hrest := congrArg (· >>= fun ids => pure (k.declared?.toList ++ ids)) ih
    simp only [bind_assoc, pure_bind] at hrest
    rw [← hrest]
    congr 1
    funext kinds
    cases k <;> rfl

theorem declaredAt_eq {a a' : Arena} (h : a.Alike a') (x : NodeId) :
    declaredAt a x = declaredAt a' x := by
  unfold declaredAt
  exact h.kind_bind (f := fun k => pure k.declared?.toList)
    ⟨fun _ => rfl, fun _ _ _ => rfl, fun _ _ => rfl, fun _ => rfl⟩ x

/-- What the layout of frames sees of two programs is the same. -/
structure Matches (a a' : Arena) (info info' : SemanticInfo) (table table' : SymbolTable) :
    Prop where
  arena : a.Alike a'
  callTarget : info.callTarget = info'.callTarget
  variableOf : ∀ id name, a.kind id = .ok (.var name) →
    info.variableOf table id = info'.variableOf table' id
  sizeOf : table.sizeOf = table'.sizeOf

namespace Matches

variable {a a' : Arena} {info info' : SemanticInfo} {table table' : SymbolTable}

theorem slotSize (h : Matches a a' info info' table table') (b : Binder) (span : Span) :
    Frame.slotSize table b span = Frame.slotSize table' b span := by
  unfold Frame.slotSize
  rw [h.sizeOf]

theorem addParameter (h : Matches a a' info info' table table') {taken taken' : List NodeId}
    {param : NodeId} (htaken : taken.contains param = taken'.contains param) (f : Frame)
    (index : Nat) : Frame.addParameter a table taken f index param =
      Frame.addParameter a' table' taken' f index param := by
  unfold Frame.addParameter
  rcases h.arena.node param with ⟨e, he, he'⟩ | ⟨n, n', hn, hn', halike⟩
  · rw [he, he']
    rfl
  · simp only [hn, hn', Outcome.lift_ok, Outcome.ok_bind, halike.kind NodeKind.blind_binder?,
      halike.span, h.slotSize, htaken]

theorem addParameters (h : Matches a a' info info' table table') {taken taken' : List NodeId}
    {params : List NodeId} (htaken : ∀ p ∈ params, taken.contains p = taken'.contains p) (f : Frame)
    (index : Nat) : Frame.addParameters a table taken index params f =
      Frame.addParameters a' table' taken' index params f := by
  induction params generalizing index f with
  | nil => rfl
  | cons param rest ih =>
    simp only [Frame.addParameters, h.addParameter (htaken param (by simp)),
      ih fun p hp => htaken p (by simp [hp])]

theorem addLocal (h : Matches a a' info info' table table') (f : Frame) (id : NodeId) :
    Frame.addLocal a table f id = Frame.addLocal a' table' f id := by
  unfold Frame.addLocal
  rcases h.arena.node id with ⟨e, he, he'⟩ | ⟨n, n', hn, hn', halike⟩
  · rw [he, he']
    rfl
  · simp only [hn, hn', Outcome.lift_ok, Outcome.ok_bind, halike.kind NodeKind.blind_binder?,
      halike.span, h.slotSize]

theorem takenBy_eq_variableOf (arg param : NodeId) :
    Frame.takenBy a info table arg param = (do
      if !(← a.binder? param).any (·.isReference) then
        return none
      match ← a.kind arg with
      | .var _ => info.variableOf table arg
      | _ => return none) := by
  unfold Frame.takenBy SemanticInfo.variableOf
  rfl

theorem takenBy (h : Matches a a' info info' table table') (arg param : NodeId) :
    Frame.takenBy a info table arg param = Frame.takenBy a' info' table' arg param := by
  rw [takenBy_eq_variableOf, takenBy_eq_variableOf, h.arena.binder? param]
  congr 1
  funext found
  split
  · rfl
  · by_cases hvar : ∃ name, a.kind arg = .ok (.var name)
    · obtain ⟨name, hk⟩ := hvar
      rw [h.variableOf arg name hk]
      exact h.arena.kind_bind ⟨fun _ => rfl, fun _ _ _ => rfl, fun _ _ => rfl, fun _ => rfl⟩ arg
    · -- no variable on either side
      rw [h.arena.kind_bind ⟨fun _ => rfl, fun _ _ _ => rfl, fun _ _ => rfl, fun _ => rfl⟩ arg]
      cases hk : a'.kind arg with
      | error e => rfl
      | ok k =>
        cases k with
        | var name => exact absurd ⟨name, h.arena.symm.kind_of_var hk⟩ hvar
        | _ => rfl

theorem takenAt (h : Matches a a' info info' table table') (id : NodeId) :
    Frame.takenAt a info table id = Frame.takenAt a' info' table' id := by
  unfold Frame.takenAt
  simp only [h.callTarget, h.takenBy, h.arena.function?]
  exact h.arena.kind_bind ⟨fun _ => rfl, fun _ _ _ => rfl, fun _ _ => rfl, fun _ => rfl⟩ id

/-- A function whose statements are walked over in the same way has the same frame. -/
theorem layout (h : Matches a a' info info' table table') {f : FunctionNode}
    (hwalk : ∀ r ∈ f.body, a.walk r = a'.walk r) :
    Frame.layout a info table f = Frame.layout a' info' table' f := by
  have htaken : f.body.mapM (takenIn a info table) = f.body.mapM (takenIn a' info' table') := by
    refine Outcome.mapM_congr fun r hr => ?_
    rw [takenIn, takenIn, hwalk r hr, funext h.takenAt]
  have hlocals : ∀ (rs : List NodeId), (∀ r ∈ rs, a.walk r = a'.walk r) → ∀ g : Frame,
      rs.foldlM (addLocals a table) g = rs.foldlM (addLocals a' table') g := by
    intro rs hrs g
    induction rs generalizing g with
    | nil => rfl
    | cons r rs ih =>
      have hone : addLocals a table g r = addLocals a' table' g r := by
        rw [addLocals, addLocals, localsOf_eq_flatten, localsOf_eq_flatten, hrs r (by simp),
          funext (declaredAt_eq h.arena), funext fun g => funext (h.addLocal g)]
      rw [List.foldlM_cons, List.foldlM_cons, hone]
      exact congrArg _ (funext fun g' => ih (fun x hx => hrs x (by simp [hx])) g')
  unfold Frame.layout
  simp only [htaken, h.addParameters fun _ _ => rfl, hlocals f.body hwalk]

end Matches

end Frame

namespace Gen

variable {α β : Type} {cx cx' : Context}

/-- In their contexts, `x` and `y` do the same from every state. -/
def Tandem (cx cx' : Context) (x y : Gen α) : Prop := ∀ s, x cx s = y cx' s

theorem tandem_pure (v : α) : Tandem cx cx' (pure v) (pure v) := fun _ => rfl

theorem tandem_fail (failure : Failure CodegenError) :
    Tandem cx cx' (fail failure : Gen α) (fail failure) := fun _ => rfl

theorem tandem_emit (mnemonic : Mnemonic) (operands : List Operand) :
    Tandem cx cx' (emit mnemonic operands) (emit mnemonic operands) := fun _ => rfl

theorem tandem_placeLabel (name : String) :
    Tandem cx cx' (placeLabel name) (placeLabel name) := fun _ => rfl

theorem tandem_update (f : State → State) : Tandem cx cx' (update f) (update f) := fun _ => rfl

theorem tandem_state : Tandem cx cx' state state := fun _ => rfl

theorem tandem_lift {x y : Except Fault α} (h : x = y) : Tandem cx cx' (liftM x) (liftM y) := by
  subst h
  exact fun _ => rfl

theorem tandem_bind {x y : Gen α} {f g : α → Gen β} (hx : Tandem cx cx' x y)
    (hf : ∀ v, Tandem cx cx' (f v) (g v)) : Tandem cx cx' (x >>= f) (y >>= g) := by
  intro s
  change Gen.bind x f cx s = Gen.bind y g cx' s
  unfold Gen.bind
  rw [hx s]
  cases y cx' s with
  | error e => rfl
  | ok o => simp only [hf o.value o.state]

theorem context_bind_apply (f : Context → Gen β) (s : State) :
    (context >>= f) cx s = f cx cx s := by
  change Gen.bind context f cx s = _
  unfold Gen.bind context
  dsimp only
  cases f cx cx s <;> rfl

theorem tandem_context {f g : Context → Gen β} (h : Tandem cx cx' (f cx) (g cx')) :
    Tandem cx cx' (context >>= f) (context >>= g) := by
  intro s
  rw [context_bind_apply, context_bind_apply]
  exact h s

theorem tandem_ite {c : Prop} [Decidable c] {x x' y y' : Gen α} (hx : Tandem cx cx' x x')
    (hy : Tandem cx cx' y y') :
    Tandem cx cx' (if c then x else y) (if c then x' else y') := by
  split
  · exact hx
  · exact hy

/-- An instruction that is left out unless it is needed. -/
theorem tandem_emit_if {c : Prop} [Decidable c] {mnemonic : Mnemonic} {operands : List Operand}
    {f g : Unit → Gen β} (h : Tandem cx cx' (f ()) (g ())) :
    Tandem cx cx' (if c then emit mnemonic operands >>= f else f ())
      (if c then emit mnemonic operands >>= g else g ()) :=
  tandem_ite (tandem_bind (tandem_emit _ _) fun _ => h) h

theorem tandem_forM {ι : Type} {f g : ι → Gen PUnit} {xs : List ι}
    (h : ∀ x ∈ xs, Tandem cx cx' (f x) (g x)) : Tandem cx cx' (xs.forM f) (xs.forM g) := by
  induction xs with
  | nil => exact tandem_pure _
  | cons x xs ih =>
    exact tandem_bind (h x (by simp)) fun _ => ih fun z hz => h z (by simp [hz])

/-! ### Registers and the stack -/

theorem tandem_newLabel : Tandem cx cx' newLabel newLabel := fun _ => rfl

theorem tandem_textConstant (value : String) :
    Tandem cx cx' (textConstant value) (textConstant value) := fun _ => rfl

theorem tandem_release (r : Register) : Tandem cx cx' (release r) (release r) :=
  tandem_bind tandem_state fun _ => tandem_bind (tandem_lift rfl) fun _ => tandem_update _

theorem tandem_releaseAll (rs : List Register) : Tandem cx cx' (releaseAll rs) (releaseAll rs) :=
  tandem_forM fun r _ => tandem_release r

theorem tandem_claim (r : Register) : Tandem cx cx' (claim r) (claim r) := by
  refine tandem_bind tandem_state fun s => ?_
  split
  · exact tandem_update _
  · exact tandem_fail _

theorem tandem_grow (words : Nat) : Tandem cx cx' (grow words) (grow words) := tandem_update _

theorem tandem_shrink (words : Nat) : Tandem cx cx' (shrink words) (shrink words) :=
  tandem_bind tandem_state fun _ => tandem_ite (tandem_update _) (tandem_fail _)

theorem tandem_push (r : Register) : Tandem cx cx' (push r) (push r) :=
  tandem_bind (tandem_emit _ _) fun _ => tandem_grow 1

theorem tandem_pop (r : Register) : Tandem cx cx' (pop r) (pop r) :=
  tandem_bind (tandem_emit _ _) fun _ => tandem_shrink 1

/-! ### Programs that look the same -/

/-- What code generation sees of two programs while it lowers a function is the same. -/
structure Context.Matches (cx cx' : Context) : Prop where
  arena : cx.arena.Alike cx'.arena
  typeOf : cx.info.typeOf = cx'.info.typeOf
  callTarget : cx.info.callTarget = cx'.info.callTarget
  slotOf : ∀ id name, cx.arena.kind id = .ok (.var name) → Tandem cx cx' (slotOf id) (slotOf id)
  sizeOf : cx.table.sizeOf = cx'.table.sizeOf
  field : cx.table.field = cx'.table.field
  fields : cx.table.fields = cx'.table.fields
  recordDepth : cx.table.recordDepth = cx'.table.recordDepth
  labels : ∀ id, cx.labels.lookup id = cx'.labels.lookup id
  frame : cx.frame = cx'.frame
  isEntry : cx.isEntry = cx'.isEntry

theorem kind_bind_apply {id : NodeId} {k : NodeKind} (f : NodeKind → Gen β)
    (hk : cx.arena.kind id = .ok k) (s : State) : (kind id >>= f) cx s = f k cx s := by
  obtain ⟨span, hn⟩ := Arena.kind_eq_ok_iff.1 hk
  change Gen.bind (Gen.bind (node id) fun n => Gen.pure n.kind) f cx s = _
  have hnode : node id cx s = .ok ⟨⟨k, span⟩, [], s⟩ := by
    unfold node
    rw [context_bind_apply, hn]
    rfl
  unfold Gen.bind Gen.pure
  rw [hnode]
  dsimp only
  cases f k cx s <;> rfl

/-- A node that is the same on both sides has the same kind there. -/
theorem tandem_kind {id : NodeId} (h : cx.arena.node id = cx'.arena.node id) :
    Tandem cx cx' (kind id) (kind id) :=
  tandem_bind (tandem_context (tandem_lift h)) fun _ => tandem_pure _

theorem tandem_node_bind_of {id : NodeId} {f g : Node → Gen β} (h : cx.arena.Alike cx'.arena)
    (hfg : ∀ n n', cx.arena.node id = .ok n → n.Alike n' → Tandem cx cx' (f n) (g n')) :
    Tandem cx cx' (node id >>= f) (node id >>= g) := by
  intro s
  change Gen.bind (node id) f cx s = Gen.bind (node id) g cx' s
  have hnode : ∀ cx : Context, node id cx s = match cx.arena.node id with
    | .ok n => .ok ⟨n, [], s⟩
    | .error e => .error (.fault e) := fun cx => by
    unfold node
    rw [context_bind_apply]
    cases hn : cx.arena.node id <;> rfl
  unfold Gen.bind
  rw [hnode, hnode]
  rcases h.node id with ⟨e, he, he'⟩ | ⟨n, n', hn, hn', halike⟩
  · rw [he, he']
  · rw [hn, hn']
    simp only [hfg n n' hn halike s]

theorem tandem_node_bind {id : NodeId} {f g : Node → Gen β} (h : cx.arena.Alike cx'.arena)
    (hfg : ∀ n n', n.Alike n' → Tandem cx cx' (f n) (g n')) :
    Tandem cx cx' (node id >>= f) (node id >>= g) := tandem_node_bind_of h fun n n' _ => hfg n n'

theorem tandem_unsupported {id : NodeId} (h : cx.arena.Alike cx'.arena) (what : Unsupported) :
    Tandem cx cx' (unsupported what id : Gen α) (unsupported what id) :=
  tandem_node_bind h fun n n' halike => by
    rw [halike.span]
    exact tandem_fail _

section Matching

variable (h : cx.Matches cx') {id : NodeId}
include h

/-- What only depends on the kind of a node, and not on what containers hold. -/
theorem tandem_kind_bind_of {f g : NodeKind → Gen β} (hf : NodeKind.Blind f)
    (hg : NodeKind.Blind g)
    (hfg : ∀ k, cx.arena.kind id = .ok k ∨ k = .dummy → Tandem cx cx' (f k) (g k)) :
    Tandem cx cx' (kind id >>= f) (kind id >>= g) := by
  have hassoc : ∀ (f : NodeKind → Gen β) (cx : Context) (s : State),
      (kind id >>= f) cx s = (node id >>= fun n => f n.kind) cx s := fun f cx s => by
    change Gen.bind (Gen.bind (node id) fun n => Gen.pure n.kind) f cx s =
      Gen.bind (node id) (fun n => f n.kind) cx s
    unfold Gen.bind Gen.pure
    cases node id cx s with
    | error e => rfl
    | ok o => simp
  intro s
  rw [hassoc, hassoc]
  refine tandem_node_bind_of h.arena (fun n n' hn halike => ?_) s
  rcases halike with rfl | ⟨-, hk, hk'⟩
  · exact hfg n.kind (.inl (Arena.kind_eq_ok_iff.2 ⟨n.span, hn⟩))
  · rw [hf.eq hk, hg.eq hk']
    exact hfg .dummy (.inr rfl)

theorem tandem_kind_bind {f g : NodeKind → Gen β} (hf : NodeKind.Blind f)
    (hg : NodeKind.Blind g) (hfg : ∀ k, Tandem cx cx' (f k) (g k)) :
    Tandem cx cx' (kind id >>= f) (kind id >>= g) := tandem_kind_bind_of h hf hg fun k _ => hfg k

theorem tandem_scratch : Tandem cx cx' (scratch id) (scratch id) := by
  refine tandem_bind tandem_state fun s => ?_
  split
  · exact tandem_bind (tandem_update _) fun _ => tandem_pure _
  · exact tandem_node_bind h.arena fun n n' halike => by
      rw [halike.span]
      exact tandem_fail _

theorem tandem_typeOf : Tandem cx cx' (typeOf id) (typeOf id) := by
  refine tandem_context ?_
  rw [h.typeOf]
  split
  · exact tandem_pure _
  · exact tandem_unsupported h.arena _

theorem tandem_sizeOf (ty : Ty) : Tandem cx cx' (Gen.sizeOf ty id) (Gen.sizeOf ty id) := by
  refine tandem_context (tandem_bind (tandem_lift (congrFun h.sizeOf ty)) fun found => ?_)
  split
  · exact tandem_pure _
  · exact tandem_unsupported h.arena _

theorem tandem_immediate : Tandem cx cx' (immediate id) (immediate id) := by
  refine tandem_kind_bind h ?_ ?_ fun k => ?_
  · exact ⟨fun _ => rfl, fun _ _ _ => rfl, fun _ _ => rfl, fun _ => rfl⟩
  · exact ⟨fun _ => rfl, fun _ _ _ => rfl, fun _ _ => rfl, fun _ => rfl⟩
  · split <;> exact tandem_pure _

end Matching

end Gen

namespace Lowering

open Gen

variable {cx cx' : Context} {lower lower' : Lowering} {id : NodeId}

/-- The parts of expressions are lowered in the same way. -/
structure Tandem (cx cx' : Context) (lower lower' : Lowering) : Prop where
  expression : ∀ id, Gen.Tandem cx cx' (lower.expression id) (lower'.expression id)
  place : ∀ id, Gen.Tandem cx cx' (lower.place id) (lower'.place id)

section Matching

variable (h : cx.Matches cx')
include h

/-! ### Places -/

theorem tandem_load (location : Location) (ty : Ty) (target : Register) :
    Gen.Tandem cx cx' (load location ty target id) (load location ty target id) := by
  cases location with
  | register source => exact tandem_emit _ _
  | memory address => exact tandem_bind (tandem_sizeOf h ty) fun _ => tandem_emit _ _

theorem tandem_store (location : Location) (ty : Ty) (value : Register) :
    Gen.Tandem cx cx' (store location ty value id) (store location ty value id) := by
  cases location with
  | register destination => exact tandem_emit _ _
  | memory address => exact tandem_bind (tandem_sizeOf h ty) fun _ => tandem_emit _ _

omit h in
theorem tandem_releasePlace (place : Place) :
    Gen.Tandem cx cx' (releasePlace place) (releasePlace place) := tandem_releaseAll _

theorem tandem_targetOf (place : Place) :
    Gen.Tandem cx cx' (targetOf place id) (targetOf place id) := by
  unfold targetOf
  split
  · exact tandem_pure _
  · exact tandem_scratch h

theorem tandem_variablePlace {name : String} (hk : cx.arena.kind id = .ok (.var name)) :
    Gen.Tandem cx cx' (variablePlace id) (variablePlace id) := by
  refine tandem_bind (h.slotOf id name hk) fun slot => ?_
  split
  · exact tandem_pure _
  · exact tandem_pure _
  · exact tandem_pure _
  · exact tandem_pure _
  · exact tandem_bind (tandem_scratch h) fun _ =>
      tandem_bind (tandem_emit _ _) fun _ => tandem_pure _

theorem tandem_fieldPlace (hlower : Tandem cx cx' lower lower') (base : NodeId) (name : String) :
    Gen.Tandem cx cx' (fieldPlace lower id base name) (fieldPlace lower' id base name) := by
  refine tandem_bind (tandem_typeOf h) fun ty => ?_
  split
  · next record =>
    refine tandem_context (tandem_bind (tandem_lift (congrFun₂ h.field record name))
      fun found => ?_)
    split
    · exact tandem_unsupported h.arena _
    · refine tandem_bind (hlower.place base) fun outer => ?_
      split
      · exact tandem_bind (tandem_lift rfl) fun _ => tandem_pure _
      · exact tandem_unsupported h.arena _
  · exact tandem_unsupported h.arena _

theorem tandem_elementPlace (hlower : Tandem cx cx' lower lower') (base index : NodeId) :
    Gen.Tandem cx cx' (elementPlace lower id base index) (elementPlace lower' id base index) := by
  refine tandem_bind (tandem_typeOf h) fun ty => tandem_bind (tandem_sizeOf h ty) fun _ => ?_
  refine tandem_bind (hlower.expression base) fun _ =>
    tandem_bind (hlower.expression index) fun _ => ?_
  exact tandem_bind (tandem_emit _ _) fun _ => tandem_bind (tandem_emit _ _) fun _ =>
    tandem_bind (tandem_release _) fun _ => tandem_pure _

theorem tandem_placeAt (hlower : Tandem cx cx' lower lower') :
    Gen.Tandem cx cx' (placeAt lower id) (placeAt lower' id) := by
  refine tandem_kind_bind_of h ?_ ?_ fun k hk => ?_
  · exact ⟨fun _ => rfl, fun _ _ _ => rfl, fun _ _ => rfl, fun _ => rfl⟩
  · exact ⟨fun _ => rfl, fun _ _ _ => rfl, fun _ _ => rfl, fun _ => rfl⟩
  · split
    · exact tandem_variablePlace h (hk.resolve_right (by simp))
    · exact tandem_fieldPlace h hlower _ _
    · exact tandem_elementPlace h hlower _ _
    · exact tandem_unsupported h.arena _

theorem tandem_address (hlower : Tandem cx cx' lower lower') :
    Gen.Tandem cx cx' (address lower id) (address lower' id) := by
  refine tandem_bind (hlower.place id) fun place => ?_
  split
  · exact tandem_unsupported h.arena _
  · exact tandem_bind (tandem_targetOf h place) fun _ =>
      tandem_bind (tandem_emit _ _) fun _ => tandem_pure _

/-! ### Operators -/

theorem tandem_step (hlower : Tandem cx cx' lower lower') (op : UnaryOp) (operand : NodeId) :
    Gen.Tandem cx cx' (step lower id op operand) (step lower' id op operand) := by
  refine tandem_bind (tandem_typeOf h) fun ty => tandem_bind (hlower.place operand) fun place =>
    tandem_bind (tandem_scratch h) fun value => tandem_bind (tandem_load h _ _ _) fun _ => ?_
  have hdone : ∀ _ : Unit, Gen.Tandem cx cx' (releasePlace place >>= fun _ => pure value)
      (releasePlace place >>= fun _ => pure value) :=
    fun _ => tandem_bind (tandem_releasePlace place) fun _ => tandem_pure value
  split
  · exact tandem_bind (tandem_emit _ _) fun _ => tandem_bind (tandem_store h _ _ _) hdone
  · exact tandem_bind (tandem_emit _ _) fun _ => tandem_bind (tandem_store h _ _ _) hdone
  · exact tandem_bind (tandem_scratch h) fun _ => tandem_bind (tandem_emit _ _) fun _ =>
      tandem_bind (tandem_emit _ _) fun _ => tandem_bind (tandem_store h _ _ _) fun _ =>
        tandem_bind (tandem_release _) hdone

theorem tandem_unary (hlower : Tandem cx cx' lower lower') (op : UnaryOp) (operand : NodeId) :
    Gen.Tandem cx cx' (unary lower id op operand) (unary lower' id op operand) := by
  unfold unary
  split
  · exact tandem_bind (hlower.expression operand) fun _ =>
      tandem_bind (tandem_emit _ _) fun _ => tandem_pure _
  · exact tandem_bind (hlower.expression operand) fun _ =>
      tandem_bind (tandem_emit _ _) fun _ => tandem_pure _
  · exact tandem_step h hlower op operand

theorem tandem_rejectText (op : BinaryOp) (left : NodeId) :
    Gen.Tandem cx cx' (rejectText id op left) (rejectText id op left) :=
  tandem_ite (tandem_pure _) (tandem_bind (tandem_typeOf h) fun _ =>
    tandem_ite (tandem_unsupported h.arena _) (tandem_pure _))

theorem tandem_divide (result dividend divisor : Register) :
    Gen.Tandem cx cx' (divide id result dividend divisor) (divide id result dividend divisor) := by
  unfold divide
  extract_lets jp
  have hdivide : ∀ d, Gen.Tandem cx cx' (jp d) (jp d) := fun d => by
    refine tandem_bind tandem_state fun s => tandem_emit_if (tandem_emit_if (tandem_emit_if ?_))
    refine tandem_bind (tandem_emit _ _) fun _ => tandem_bind (tandem_emit _ _) fun _ => ?_
    exact tandem_emit_if (tandem_emit_if (tandem_emit_if
      (tandem_bind (tandem_release _) fun _ => tandem_pure _)))
  refine tandem_ite ?_ (tandem_bind (tandem_pure _) hdivide)
  exact tandem_bind (tandem_scratch h) fun _ => tandem_bind (tandem_emit _ _) fun _ =>
    tandem_bind (tandem_release _) fun _ => tandem_bind (tandem_pure _) hdivide

theorem tandem_binary (hlower : Tandem cx cx' lower lower') (op : BinaryOp)
    (left right : NodeId) :
    Gen.Tandem cx cx' (binary lower id op left right) (binary lower' id op left right) := by
  refine tandem_bind (tandem_rejectText h op left) fun _ =>
    tandem_bind (hlower.expression left) fun lhs => tandem_bind (hlower.expression right)
      fun rhs => ?_
  cases op with
  | plus | minus | times | and | or =>
    exact tandem_bind (tandem_emit _ _) fun _ => tandem_bind (tandem_release _) fun _ =>
      tandem_pure _
  | div | mod => exact tandem_divide h _ _ _
  | equal | unequal | lesser | lesserEq | greater | greaterEq =>
    exact tandem_bind (tandem_emit _ _) fun _ => tandem_bind (tandem_emit _ _) fun _ =>
      tandem_bind (tandem_emit _ _) fun _ => tandem_bind (tandem_release _) fun _ => tandem_pure _

/-! ### Calls -/

theorem tandem_calleeOf (name : String) (args : List NodeId) :
    Gen.Tandem cx cx' (calleeOf id name args) (calleeOf id name args) := by
  refine tandem_context ?_
  rw [h.callTarget]
  split
  · exact tandem_unsupported h.arena _
  · next definition _ =>
    refine tandem_bind (tandem_lift (h.arena.function? definition)) fun found => ?_
    split
    · exact tandem_unsupported h.arena _
    · refine tandem_ite (tandem_bind (tandem_unsupported h.arena _) fun _ => ?_) ?_
      all_goals
        have hbinders : cx.arena.binder? = cx'.arena.binder? := funext h.arena.binder?
        refine tandem_bind (tandem_lift (by rw [hbinders])) fun params => ?_
        rw [h.labels definition]
        split
        · exact tandem_unsupported h.arena _
        · exact tandem_pure _
  · split
    · exact tandem_unsupported h.arena _
    · exact tandem_pure _

theorem tandem_pushArgument (hlower : Tandem cx cx' lower lower') (arg : NodeId)
    (byAddress : Bool) :
    Gen.Tandem cx cx' (pushArgument lower arg byAddress) (pushArgument lower' arg byAddress) := by
  unfold pushArgument
  extract_lets jp
  have hpush : ∀ r, Gen.Tandem cx cx' (jp r) (jp r) := fun r =>
    tandem_bind (tandem_push r) fun _ => tandem_release r
  refine tandem_ite ?_ (tandem_bind (hlower.expression arg) hpush)
  have haddress : Gen.Tandem cx cx' (address lower arg >>= jp) (address lower' arg >>= jp) :=
    tandem_bind (tandem_address h hlower) hpush
  refine tandem_kind_bind h ?_ ?_ fun k => ?_
  · exact NodeKind.blind_isCall.comp fun isCall =>
      if isCall = true then unsupported .recordResult arg >>= fun _ => address lower arg >>= jp
      else address lower arg >>= jp
  · exact NodeKind.blind_isCall.comp fun isCall =>
      if isCall = true then unsupported .recordResult arg >>= fun _ => address lower' arg >>= jp
      else address lower' arg >>= jp
  · exact tandem_ite (tandem_bind (tandem_unsupported h.arena _) fun _ => haddress) haddress

theorem tandem_passArguments (hlower : Tandem cx cx' lower lower') (callee : Callee)
    (args : List NodeId) :
    Gen.Tandem cx cx' (passArguments lower callee args) (passArguments lower' callee args) := by
  refine tandem_bind tandem_state fun s =>
    tandem_bind (tandem_forM fun r _ => tandem_push r) fun _ => tandem_bind tandem_state fun s => ?_
  extract_lets padding jp jp'
  have hjp : ∀ v, Gen.Tandem cx cx' (jp v) (jp' v) := fun _ =>
    tandem_bind (tandem_forM fun p _ => tandem_pushArgument h hlower p.1 p.2) fun _ =>
      tandem_bind (tandem_forM fun r _ => tandem_pop r) fun _ => tandem_pure _
  exact tandem_ite (tandem_bind (tandem_emit _ _) fun _ => tandem_bind (tandem_grow 1) hjp)
    (hjp ())

theorem tandem_takeResult : Gen.Tandem cx cx' (takeResult id) (takeResult id) :=
  tandem_bind (tandem_scratch h) fun _ => tandem_emit_if (tandem_pure _)

theorem tandem_callNode (hlower : Tandem cx cx' lower lower') (name : String)
    (args : List NodeId) :
    Gen.Tandem cx cx' (callNode lower id name args) (callNode lower' id name args) := by
  have hpops : ∀ (saved : List Register) (result : Option Register), Gen.Tandem cx cx'
      (pure result >>= fun result => saved.reverse.forM pop >>= fun _ => pure result)
      (pure result >>= fun result => saved.reverse.forM pop >>= fun _ => pure result) :=
    fun saved result => tandem_bind (tandem_pure result) fun _ =>
      tandem_bind (tandem_forM fun r _ => tandem_pop r) fun _ => tandem_pure _
  have hresult : ∀ (callee : Callee) (saved : List Register), Gen.Tandem cx cx'
      (if callee.returnsValue = true then takeResult id >>= fun r => pure (some r) >>= fun result =>
        saved.reverse.forM pop >>= fun _ => pure result
        else pure none >>= fun result => saved.reverse.forM pop >>= fun _ => pure result)
      (if callee.returnsValue = true then takeResult id >>= fun r => pure (some r) >>= fun result =>
        saved.reverse.forM pop >>= fun _ => pure result
        else pure none >>= fun result => saved.reverse.forM pop >>= fun _ => pure result) :=
    fun callee saved => tandem_ite (tandem_bind (tandem_takeResult h) fun r => hpops saved (some r))
      (hpops saved none)
  refine tandem_bind (tandem_calleeOf h name args) fun callee => tandem_bind tandem_state fun s =>
    tandem_bind (tandem_passArguments h hlower callee args) fun dropped =>
      tandem_bind (tandem_emit _ _) fun _ => ?_
  exact tandem_ite (tandem_bind (tandem_emit _ _) fun _ => tandem_bind (tandem_shrink _) fun _ =>
    hresult callee _) (hresult callee _)

theorem tandem_call (hlower : Tandem cx cx' lower lower') :
    Gen.Tandem cx cx' (call lower id) (call lower' id) := by
  refine tandem_kind_bind h ?_ ?_ fun k => ?_
  · exact ⟨fun _ => rfl, fun _ _ _ => rfl, fun _ _ => rfl, fun _ => rfl⟩
  · exact ⟨fun _ => rfl, fun _ _ _ => rfl, fun _ _ => rfl, fun _ => rfl⟩
  · split
    · exact tandem_callNode h hlower _ _
    · exact tandem_pure _

/-! ### Expressions -/

theorem tandem_constant (value : Int64) :
    Gen.Tandem cx cx' (constant id value) (constant id value) :=
  tandem_bind (tandem_scratch h) fun _ => tandem_bind (tandem_emit _ _) fun _ => tandem_pure _

theorem tandem_placeValue (hlower : Tandem cx cx' lower lower') :
    Gen.Tandem cx cx' (placeValue lower id) (placeValue lower' id) := by
  refine tandem_bind (tandem_typeOf h) fun ty => ?_
  have hread : Gen.Tandem cx cx'
      (placeAt lower id >>= fun place => targetOf place id >>= fun target =>
        load place.location ty target id >>= fun _ => pure target)
      (placeAt lower' id >>= fun place => targetOf place id >>= fun target =>
        load place.location ty target id >>= fun _ => pure target) :=
    tandem_bind (tandem_placeAt h hlower) fun place => tandem_bind (tandem_targetOf h place)
      fun target => tandem_bind (tandem_load h place.location ty target) fun _ => tandem_pure target
  exact tandem_ite (tandem_bind (tandem_unsupported h.arena _) fun _ => hread) hread

theorem tandem_expressionAt (hlower : Tandem cx cx' lower lower') :
    Gen.Tandem cx cx' (expressionAt lower id) (expressionAt lower' id) := by
  refine tandem_kind_bind h ?_ ?_ fun k => ?_
  · exact ⟨fun _ => rfl, fun _ _ _ => rfl, fun _ _ => rfl, fun _ => rfl⟩
  · exact ⟨fun _ => rfl, fun _ _ _ => rfl, fun _ _ => rfl, fun _ => rfl⟩
  cases k with
  | int | bool => exact tandem_constant h _
  | text value =>
    exact tandem_bind (tandem_textConstant value) fun _ => tandem_bind (tandem_scratch h) fun _ =>
      tandem_bind (tandem_emit _ _) fun _ => tandem_pure _
  | var | field | element => exact tandem_placeValue h hlower
  | unary op operand => exact tandem_unary h hlower op operand
  | binary op left right => exact tandem_binary h hlower op left right
  | call name args =>
    refine tandem_bind (tandem_callNode h hlower name args) fun result => ?_
    split
    · exact tandem_pure _
    · exact tandem_unsupported h.arena _
  | _ => exact tandem_unsupported h.arena _

theorem tandem_atDepth (depth : Nat) : Tandem cx cx' (atDepth depth) (atDepth depth) := by
  induction depth with
  | zero => exact ⟨fun _ => tandem_fail _, fun _ => tandem_fail _⟩
  | succ depth ih => exact ⟨fun _ => tandem_expressionAt h ih, fun _ => tandem_placeAt h ih⟩

theorem tandem_ofArena : Tandem cx cx' (ofArena cx.arena) (ofArena cx'.arena) := by
  rw [ofArena, ofArena, h.arena.depthLimit]
  exact tandem_atDepth h _

/-! ### Records and declarations -/

theorem tandem_copyFields (r : Register) (depth : Nat) (record : String)
    (source target : Address) :
    Gen.Tandem cx cx' (copyFields r id depth record source target)
      (copyFields r id depth record source target) := by
  induction depth generalizing record source target with
  | zero => exact tandem_unsupported h.arena _
  | succ depth ih =>
    refine tandem_context (tandem_bind (tandem_lift (congrFun h.fields record)) fun found => ?_)
    split
    · exact tandem_unsupported h.arena _
    · refine tandem_forM fun p _ => tandem_bind (tandem_lift rfl) fun _ =>
        tandem_bind (tandem_lift rfl) fun _ => ?_
      split
      · exact ih _ _ _
      · exact tandem_bind (tandem_load h _ _ _) fun _ => tandem_store h _ _ _

theorem tandem_copyRecord (record : String) (source target : Address) (r : Register) :
    Gen.Tandem cx cx' (copyRecord record source target r id)
      (copyRecord record source target r id) := by
  refine tandem_context ?_
  rw [h.recordDepth]
  exact tandem_copyFields h _ _ _ _ _

theorem tandem_zeroFill (depth : Nat) (ty : Ty) (target : Address) :
    Gen.Tandem cx cx' (zeroFill id depth ty target) (zeroFill id depth ty target) := by
  have hplain : ∀ (ty : Ty) (target : Address), Gen.Tandem cx cx' (do
      let width := Width.ofSize (← Gen.sizeOf ty id)
      emit .mov [.mem width target, .imm 0]) (do
      let width := Width.ofSize (← Gen.sizeOf ty id)
      emit .mov [.mem width target, .imm 0]) := fun ty target =>
    tandem_bind (tandem_sizeOf h ty) fun _ => tandem_emit _ _
  induction depth generalizing ty target with
  | zero =>
    cases ty with
    | record name => exact tandem_unsupported h.arena _
    | _ => exact hplain _ _
  | succ depth ih =>
    cases ty with
    | record name =>
      refine tandem_context (tandem_bind (tandem_lift (congrFun h.fields name)) fun found => ?_)
      split
      · exact tandem_unsupported h.arena _
      · exact tandem_forM fun p _ => tandem_bind (tandem_lift rfl) fun _ => ih _ _
    | _ => exact hplain _ _

theorem tandem_declareLocal : Gen.Tandem cx cx' (declareLocal id) (declareLocal id) := by
  refine tandem_context ?_
  rw [h.frame, h.recordDepth]
  split
  · exact tandem_zeroFill h _ _ _
  · exact tandem_pure _

/-! ### Statements -/

/-- The copy of a record that is not the result of a call. -/
theorem tandem_moveRecord (hlower : Tandem cx cx' lower lower') (record : String)
    (target value : NodeId) : Gen.Tandem cx cx'
      (lower.place value >>= fun source => lower.place target >>= fun destination =>
        match source.location, destination.location with
        | .memory src, .memory dst => do
          let r ← scratch target
          copyRecord record src dst r target
          release r
          releasePlace destination
          releasePlace source
        | _, _ => unsupported .place target)
      (lower'.place value >>= fun source => lower'.place target >>= fun destination =>
        match source.location, destination.location with
        | .memory src, .memory dst => do
          let r ← scratch target
          copyRecord record src dst r target
          release r
          releasePlace destination
          releasePlace source
        | _, _ => unsupported .place target) := by
  refine tandem_bind (hlower.place value) fun source =>
    tandem_bind (hlower.place target) fun destination => ?_
  split
  · exact tandem_bind (tandem_scratch h) fun _ =>
      tandem_bind (tandem_copyRecord h _ _ _ _) fun _ => tandem_bind (tandem_release _) fun _ =>
        tandem_bind (tandem_releasePlace _) fun _ => tandem_releasePlace _
  · exact tandem_unsupported h.arena _

theorem tandem_assignRecord (hlower : Tandem cx cx' lower lower') (record : String)
    (target value : NodeId) :
    Gen.Tandem cx cx' (assignRecord lower record target value)
      (assignRecord lower' record target value) := by
  have hmove := tandem_moveRecord h hlower record target value
  refine tandem_kind_bind h ?_ ?_ fun k => ?_
  · exact ⟨fun _ => rfl, fun _ _ _ => rfl, fun _ _ => rfl, fun _ => rfl⟩
  · exact ⟨fun _ => rfl, fun _ _ _ => rfl, fun _ _ => rfl, fun _ => rfl⟩
  · exact tandem_ite (tandem_bind (tandem_unsupported h.arena _) fun _ => hmove) hmove

theorem tandem_assign (hlower : Tandem cx cx' lower lower') (target value : NodeId) :
    Gen.Tandem cx cx' (assign lower target value) (assign lower' target value) := by
  refine tandem_bind (tandem_typeOf h) fun ty => ?_
  split
  · exact tandem_assignRecord h hlower _ _ _
  · exact tandem_bind (hlower.expression value) fun _ => tandem_bind (hlower.place target) fun _ =>
      tandem_bind (tandem_store h _ _ _) fun _ => tandem_bind (tandem_releasePlace _) fun _ =>
        tandem_release _

omit h in
theorem tandem_epilogue : Gen.Tandem cx cx' epilogue epilogue :=
  tandem_bind (tandem_emit _ _) fun _ => tandem_bind (tandem_emit _ _) fun _ => tandem_emit _ _

omit h in
theorem tandem_exit (status : Operand) : Gen.Tandem cx cx' (exit status) (exit status) :=
  tandem_bind (tandem_emit _ _) fun _ => tandem_emit _ _

theorem tandem_returnedValue (hlower : Tandem cx cx' lower lower') (value : Option NodeId) :
    Gen.Tandem cx cx' (returnedValue lower value) (returnedValue lower' value) := by
  cases value with
  | none => exact tandem_pure _
  | some value =>
    exact tandem_bind (tandem_typeOf h) fun _ => tandem_ite (tandem_bind (tandem_call h hlower)
      fun _ => tandem_bind (tandem_releaseAll _) fun _ => tandem_pure _) (tandem_pure _)

theorem tandem_exitWith (hlower : Tandem cx cx' lower lower') (value : Option NodeId) :
    Gen.Tandem cx cx' (exitWith lower value) (exitWith lower' value) := by
  cases value with
  | none => exact tandem_exit _
  | some value =>
    refine tandem_bind (tandem_immediate h) fun found => ?_
    split
    · exact tandem_exit _
    · exact tandem_bind (hlower.expression value) fun _ => tandem_bind (tandem_exit _) fun _ =>
        tandem_release _

/-- A value that can be given back is moved to `rax`. -/
theorem tandem_moveResult (hlower : Tandem cx cx' lower lower') (value : NodeId) :
    Gen.Tandem cx cx'
      (immediate value >>= fun found => match found with
        | some constant => emit .mov [.reg .rax, .imm constant]
        | none => lower.expression value >>= fun r =>
          if r ≠ .rax then emit .mov [.reg .rax, .reg r] >>= fun _ => release r else release r)
      (immediate value >>= fun found => match found with
        | some constant => emit .mov [.reg .rax, .imm constant]
        | none => lower'.expression value >>= fun r =>
          if r ≠ .rax then emit .mov [.reg .rax, .reg r] >>= fun _ =>
            release r else release r) := by
  refine tandem_bind (tandem_immediate h) fun found => ?_
  split
  · exact tandem_emit _ _
  · exact tandem_bind (hlower.expression value) fun _ => tandem_emit_if (tandem_release _)

theorem tandem_giveBack (hlower : Tandem cx cx' lower lower') (value : NodeId) :
    Gen.Tandem cx cx' (giveBack lower value) (giveBack lower' value) := by
  have hmove := tandem_moveResult h hlower value
  exact tandem_bind (tandem_typeOf h) fun _ =>
    tandem_ite (tandem_bind (tandem_unsupported h.arena _) fun _ => hmove) hmove

theorem tandem_returnStatement (hlower : Tandem cx cx' lower lower') (value : Option NodeId) :
    Gen.Tandem cx cx' (returnStatement lower value) (returnStatement lower' value) := by
  refine tandem_bind (tandem_returnedValue h hlower value) fun value => tandem_context ?_
  rw [h.isEntry]
  exact tandem_ite (tandem_exitWith h hlower value)
    (tandem_bind (tandem_forM fun v _ => tandem_giveBack h hlower v) fun _ => tandem_epilogue)

/-! ### Conditions -/

theorem tandem_test (hlower : Tandem cx cx' lower lower') (shape : Test) :
    Gen.Tandem cx cx' (test lower id shape) (test lower' id shape) := by
  have hvalue : Gen.Tandem cx cx' (test lower id .value) (test lower' id .value) :=
    tandem_bind (hlower.expression id) fun _ => tandem_bind (tandem_emit _ _) fun _ =>
      tandem_bind (tandem_release _) fun _ => tandem_pure _
  cases shape with
  | comparison op condition left right =>
    exact tandem_bind (tandem_rejectText h op left) fun _ =>
      tandem_bind (hlower.expression left) fun _ => tandem_bind (hlower.expression right) fun _ =>
        tandem_bind (tandem_emit _ _) fun _ => tandem_bind (tandem_release _) fun _ =>
          tandem_bind (tandem_release _) fun _ => tandem_pure _
  | constant | value => exact hvalue

/-- Statements that are run in the same way on both sides. -/
def TandemStatements (cx cx' : Context) (statement statement' : NodeId → Gen Unit) : Prop :=
  ∀ id, Gen.Tandem cx cx' (statement id) (statement' id)

variable {statement statement' : NodeId → Gen Unit}

theorem tandem_branchOn (hlower : Tandem cx cx' lower lower')
    (hstatement : TandemStatements cx cx' statement statement') (condition : NodeId) (shape : Test)
    (onTrue : NodeId) (onFalse : Option NodeId) :
    Gen.Tandem cx cx' (branchOn lower statement condition shape onTrue onFalse)
      (branchOn lower' statement' condition shape onTrue onFalse) := by
  have hjump : ∀ target, Gen.Tandem cx cx' (jumpUnless lower condition shape target)
      (jumpUnless lower' condition shape target) := fun target =>
    tandem_bind (tandem_test h hlower shape) fun _ => tandem_emit _ _
  refine tandem_bind tandem_newLabel fun otherwise => tandem_bind (hjump otherwise) fun _ =>
    tandem_bind (hstatement onTrue) fun _ => ?_
  split
  · exact tandem_placeLabel _
  · exact tandem_bind tandem_newLabel fun _ => tandem_bind (tandem_emit _ _) fun _ =>
      tandem_bind (tandem_placeLabel _) fun _ => tandem_bind (hstatement _) fun _ =>
        tandem_placeLabel _

theorem tandem_branch (hlower : Tandem cx cx' lower lower')
    (hstatement : TandemStatements cx cx' statement statement') (condition onTrue : NodeId)
    (onFalse : Option NodeId) :
    Gen.Tandem cx cx' (branch lower statement condition onTrue onFalse)
      (branch lower' statement' condition onTrue onFalse) := by
  refine tandem_kind_bind h ?_ ?_ fun k => ?_
  · exact ⟨fun _ => rfl, fun _ _ _ => rfl, fun _ _ => rfl, fun _ => rfl⟩
  · exact ⟨fun _ => rfl, fun _ _ _ => rfl, fun _ _ => rfl, fun _ => rfl⟩
  · split
    · exact hstatement onTrue
    · exact tandem_forM fun s _ => hstatement s
    · exact tandem_branchOn h hlower hstatement _ _ _ _

theorem tandem_loop (hlower : Tandem cx cx' lower lower')
    (hstatement : TandemStatements cx cx' statement statement') (condition body : NodeId) :
    Gen.Tandem cx cx' (loop lower statement condition body)
      (loop lower' statement' condition body) := by
  have hjump : ∀ shape target, Gen.Tandem cx cx' (jumpIf lower condition shape target)
      (jumpIf lower' condition shape target) := fun shape target =>
    tandem_bind (tandem_test h hlower shape) fun _ => tandem_emit _ _
  refine tandem_kind_bind h ?_ ?_ fun k => ?_
  · exact ⟨fun _ => rfl, fun _ _ _ => rfl, fun _ _ => rfl, fun _ => rfl⟩
  · exact ⟨fun _ => rfl, fun _ _ _ => rfl, fun _ _ => rfl, fun _ => rfl⟩
  · split
    · exact tandem_pure _
    · exact tandem_bind tandem_newLabel fun _ => tandem_bind (tandem_placeLabel _) fun _ =>
        tandem_bind (hstatement body) fun _ => tandem_emit _ _
    · exact tandem_bind tandem_newLabel fun _ => tandem_bind tandem_newLabel fun _ =>
        tandem_bind (tandem_emit _ _) fun _ => tandem_bind (tandem_placeLabel _) fun _ =>
          tandem_bind (hstatement body) fun _ => tandem_bind (tandem_placeLabel _) fun _ =>
            hjump _ _

/-- One level of a statement, of a kind that is the same on both sides. -/
def statementOf (lower : Lowering) (statement : NodeId → Gen Unit) (id : NodeId) :
    NodeKind → Gen Unit
  | .block body => body.forM statement
  | .declare declaration => declareLocal declaration
  | .assign target value => assign lower target value
  | .callStatement c => do releaseAll (← call lower c).toList
  | .branch condition onTrue onFalse => branch lower statement condition onTrue onFalse
  | .loop condition body => loop lower statement condition body
  | .ret value => returnStatement lower value
  | .empty | .dummy | .declaration _ | .function _ | .record _ | .unit _ => return ()
  | _ => do release (← lower.expression id)

omit h in
theorem statement_succ (depth : Nat) (id : NodeId) : Lowering.statement lower (depth + 1) id =
    kind id >>= statementOf lower (Lowering.statement lower depth) id := rfl

theorem tandem_statementOf (hlower : Tandem cx cx' lower lower')
    (hstatement : TandemStatements cx cx' statement statement') (k : NodeKind) :
    Gen.Tandem cx cx' (statementOf lower statement id k) (statementOf lower' statement' id k) := by
  cases k with
  | block body => exact tandem_forM fun s _ => hstatement s
  | declare declaration => exact tandem_declareLocal h
  | assign target value => exact tandem_assign h hlower target value
  | callStatement c => exact tandem_bind (tandem_call h hlower) fun _ => tandem_releaseAll _
  | branch condition onTrue onFalse => exact tandem_branch h hlower hstatement _ _ _
  | loop condition body => exact tandem_loop h hlower hstatement _ _
  | ret value => exact tandem_returnStatement h hlower value
  | empty | dummy | declaration | function | record | unit => exact tandem_pure _
  | _ => exact tandem_bind (hlower.expression id) fun _ => tandem_release _

/-! ### Functions -/

omit h in
theorem tandem_homeParameter (p : HomedParameter) :
    Gen.Tandem cx cx' (homeParameter p) (homeParameter p) := tandem_emit _ _

theorem tandem_copyParameter (p : CopiedParameter) :
    Gen.Tandem cx cx' (copyParameter p) (copyParameter p) := by
  unfold copyParameter
  extract_lets incoming
  cases incoming with
  | none => exact tandem_pure _
  | some source =>
    exact tandem_bind (tandem_claim _) fun _ => tandem_bind (tandem_claim _) fun _ =>
      tandem_bind (tandem_emit _ _) fun _ => tandem_bind (tandem_copyRecord h _ _ _ _) fun _ =>
        tandem_bind (tandem_release _) fun _ => tandem_release _

theorem tandem_prologue : Gen.Tandem cx cx' prologue prologue := by
  refine tandem_context ?_
  rw [h.frame, h.isEntry]
  exact tandem_bind (tandem_emit _ _) fun _ => tandem_bind (tandem_emit _ _) fun _ =>
    tandem_emit_if (tandem_emit_if (tandem_bind (tandem_forM fun p _ => tandem_homeParameter p)
      fun _ => tandem_forM fun p _ => tandem_copyParameter h p))

theorem tandem_endsWithReturn (body : List NodeId) :
    Gen.Tandem cx cx' (endsWithReturn body) (endsWithReturn body) := by
  unfold endsWithReturn
  split
  · exact tandem_kind_bind h (NodeKind.blind_isReturn.comp pure) (NodeKind.blind_isReturn.comp pure)
      fun k => tandem_pure _
  · exact tandem_pure _

/-- Functions are lowered in the same way if their statements are. -/
theorem tandem_functionBody (label : String) (f : FunctionNode)
    (hstatement : ∀ depth, TandemStatements cx cx' (Lowering.statement (ofArena cx.arena) depth)
      (Lowering.statement (ofArena cx'.arena) depth)) :
    Gen.Tandem cx cx' (functionBody label f) (functionBody label f) := by
  refine tandem_context ?_
  rw [h.frame, h.isEntry, ← h.arena.depthLimit]
  refine tandem_bind (tandem_forM fun r _ => tandem_claim r) fun _ =>
    tandem_bind (tandem_placeLabel _) fun _ => tandem_bind (tandem_prologue h) fun _ =>
      tandem_bind (tandem_forM fun s _ => hstatement _ s) fun _ =>
        tandem_bind (tandem_endsWithReturn h f.body) fun ends => ?_
  exact tandem_ite (tandem_ite (tandem_exit _) tandem_epilogue) (tandem_pure _)

end Matching

/-! ### Programs -/

/-- Globals are reserved in the same way. -/
theorem global_eq {a a' : Arena} {table table' : SymbolTable} (h : a.Alike a')
    (hsize : table.sizeOf = table'.sizeOf) : global a table = global a' table' := by
  funext out x
  unfold global
  rcases h.node x with ⟨e, he, he'⟩ | ⟨n, n', hn, hn', halike⟩
  · rw [he, he']
    rfl
  · simp only [hn, hn', Outcome.lift_ok, Outcome.ok_bind, halike.kind NodeKind.blind_binder?,
      halike.span, hsize]

theorem functionsIn_eq {a a' : Arena} (h : a.Alike a') : functionsIn a = functionsIn a' := by
  funext ids
  unfold functionsIn
  simp only [h.function?]

end Lowering

end MiniJ
