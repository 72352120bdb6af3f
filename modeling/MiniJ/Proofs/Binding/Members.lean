import MiniJ.Proofs.Binding.Body

/-!
# Members

A record or a function opens one scope below the global one, which starts with its own name. The
conditions it is bound under are conditions on the names it declares, on the global names, and on
the variables that its body uses.

## Main statements

* `Binding.decides_bindRecord` — a record.
* `Binding.decides_bindFunction` — a function.
-/
namespace MiniJ

namespace Arena

variable {a : Arena}

/-- What the declarations among some nodes declare. -/
def bindersOf (a : Arena) (ids : List NodeId) : List Binder :=
  ids.filterMap fun id => (a.node? id).bind (·.kind.binder?)

/-- The record of a node, by name. -/
def recordAs? (a : Arena) (id : NodeId) : Option (String × Meaning) :=
  match a.node? id with
  | some ⟨.record r, _⟩ =>
    some (r.name, .record ((a.bindersOf r.fields).map fun b => ⟨b.name, b.ty⟩) id)
  | _ => none

/-- The names that declarations declare. -/
def names (a : Arena) (ids : List NodeId) : List String := (a.bindersOf ids).map (·.name)

/-- A block with a `return` directly inside. -/
def BlockReturns (a : Arena) (b : NodeId) : Prop :=
  ∃ body, a.kind b = .ok (.block body) ∧ ∃ r ∈ body, ∃ value, a.kind r = .ok (.ret value)

/-- A `return`, or an `if` with one directly inside a branch. -/
def Returns (a : Arena) (r : NodeId) : Prop :=
  (∃ value, a.kind r = .ok (.ret value)) ∨
    ∃ condition onTrue onFalse, a.kind r = .ok (.branch condition onTrue onFalse) ∧
      ∃ b ∈ onTrue :: onFalse.toList, a.BlockReturns b

/-- Parameters and locals. -/
def variableNames (a : Arena) (f : FunctionNode) : List String :=
  a.names (f.params ++ a.localsIn f.body)

/-- The rules for one function in a program with these global variables. -/
structure FunctionRules (a : Arena) (globals : String → Prop) (f : FunctionNode) : Prop where
  main : f.name = "main" → f.returnType = .int ∧ f.params = []
  distinct : (f.name :: a.variableNames f).Nodup
  uses : ∀ r ∈ f.body, ∀ v name, a.Below r v → a.kind v = .ok (.var name) →
    name ∈ a.variableNames f ∨ globals name
  returns : f.returnType ≠ .void ∧ f.name ≠ "main" → ∃ r ∈ f.body, a.Returns r

theorem map_fst_declaredAs? (cls : VariableClass) (d : NodeId) :
    (a.declaredAs? cls d).map Prod.fst = ((a.node? d).bind (·.kind.binder?)).map (·.name) := by
  unfold declaredAs?
  split
  · next h => simp [h, NodeKind.binder?]
  · next h =>
    cases hnode : a.node? d with
    | none => rfl
    | some node =>
      obtain ⟨k, span⟩ := node
      cases k with
      | declaration b => exact absurd hnode (h b span)
      | _ => rfl

theorem map_fst_filterMap (ids : List NodeId) (cls : VariableClass) :
    (ids.filterMap (a.declaredAs? cls)).map Prod.fst = a.names ids := by
  simp only [names, bindersOf, List.map_filterMap, map_fst_declaredAs?]

theorem map_fst_variablesOf (f : FunctionNode) :
    (a.variablesOf f).map Prod.fst = a.variableNames f := by
  have hparams : (a.parametersAs f.params).map Prod.fst = a.names f.params := by
    simp only [parametersAs, names, bindersOf, List.map_filterMap, map_fst_declaredAs?]
    nth_rewrite 2 [← List.zipIdx_map_fst 0 f.params]
    rw [List.filterMap_map]
    rfl
  rw [variablesOf, List.map_append, hparams, localsAs, map_fst_filterMap, variableNames, names,
    names, names, bindersOf, bindersOf, bindersOf, List.filterMap_append, List.map_append]

/-- The statements of a function are statements. -/
theorem Tree.isStatement_body {lo id r : Nat} {f : FunctionNode} (h : a.Tree lo id)
    (hf : a.kind id = .ok (.function f)) (hr : r ∈ f.body) : a.HasRole .statement r := by
  have hroles := List.forall₂_drop_append _ _ _ (h.roles hf)
  rw [NodeKind.partRoles, ← List.length_map (fun _ => Role.declaration), List.drop_left,
    List.forall₂_map_left_iff] at hroles
  obtain ⟨_, _, hrole⟩ := Outcome.exists_of_forall₂_right hroles hr
  exact hrole

/-- The statement of a local declares a variable. -/
theorem Tree.isDeclaration_declare {lo id d : Nat} (h : a.Tree lo id)
    (hk : a.kind id = .ok (.declare d)) : a.IsDeclaration d := by
  have hroles := h.roles hk
  simp only [NodeKind.partRoles, NodeKind.children, List.forall₂_cons] at hroles
  exact hroles.1.isDeclaration

theorem isVariable_of_declaredAs? {cls : VariableClass} {d : NodeId} {p : String × Meaning}
    (h : a.declaredAs? cls d = some p) : p.2.IsVariable := by
  unfold declaredAs? at h
  split at h <;> cases h
  trivial

theorem isVariable_of_mem_variablesOf {f : FunctionNode} {p : String × Meaning}
    (h : p ∈ a.variablesOf f) : p.2.IsVariable := by
  rcases List.mem_append.1 h with h | h <;> obtain ⟨d, -, hd⟩ := List.mem_filterMap.1 h <;>
  exact isVariable_of_declaredAs? hd

end Arena

namespace Binding

variable {a : Arena} {u : UnitNode} {f : FunctionNode} {s s' s'' : State} {n n' : Nat}
  {T : Nat → Prop} {L L' : List (String × Meaning)}

theorem mem_of_lookup {name : String} {m : Meaning} (h : L.lookup name = some m) :
    (name, m) ∈ L := by
  obtain ⟨front, back, rfl, -⟩ := List.lookup_eq_some_iff.1 h
  simp

/-- With distinct names, a lookup finds what is listed. -/
theorem lookup_eq_some_iff {name : String} {m : Meaning} (h : (L.map Prod.fst).Nodup) :
    L.lookup name = some m ↔ (name, m) ∈ L := by
  induction L with
  | nil => simp
  | cons p rest ih =>
    obtain ⟨key, value⟩ := p
    obtain ⟨hnot, hrest⟩ := List.nodup_cons.1 h
    by_cases heq : name = key
    · subst heq
      have hmem : (name, m) ∉ rest := fun hmem => hnot (List.mem_map.2 ⟨_, hmem, rfl⟩)
      simp [hmem, eq_comm]
    · have hne : (name == key) = false := by simpa using heq
      rw [List.lookup_cons, hne, ih hrest]
      simp [heq]

/-- What a name stands for in a body once more names are declared. -/
def seenWith (t : SymbolTable) (L : List (String × Meaning)) (name : String) : Option Meaning :=
  ((t.meaning? t.current name).or (L.lookup name)).or (t.meaning? ScopeId.global name)

theorem Enclosed.global_le (h : Enclosed a u s) : ScopeId.global ≤ s.table.scopes.size := by
  obtain ⟨g, hg, -⟩ := h.table.root
  obtain ⟨-, hg⟩ := SymbolTable.scope?_eq_some_iff.1 hg
  exact (Array.getElem?_eq_some_iff.1 hg).1

theorem Declares.seen?_eq (h : Declares 0 T L s s') (hin : Enclosed a u s) (name : String) :
    s'.table.seen? name = seenWith s.table L name := by
  rw [SymbolTable.seen?, h.current, h.here, h.elsewhere _ hin.global_le hin.scope.inner.symm,
    seenWith]

/-- The variables of a body are variables. -/
def BodyUses (a : Arena) (f : FunctionNode) (see : String → Option Meaning) : Prop :=
  ∀ r ∈ f.body, ∀ v name, a.Below r v → a.kind v = .ok (.var name) →
    ∃ m, see name = some m ∧ m.IsVariable

/-- The nodes of a body lie in the current scope, and its variables are resolved. -/
structure BodyResolved (a : Arena) (f : FunctionNode) (s : State) : Prop where
  marked : ∀ r ∈ f.body, ∀ v k, a.Below r v → a.kind v = .ok k → IsCode k →
    SemanticInfo.row s.scopes v = some s.table.current
  resolves : ∀ r ∈ f.body, ∀ v name, a.Below r v → a.kind v = .ok (.var name) → ∃ e x,
    SemanticInfo.row s.resolved v = some e ∧ s.table.entry e = .ok x ∧ x.name = name ∧
      s.table.seen? name = some x.meaning

/-- Only the locals in front declare. -/
theorem localsIn_append {locals rest : List NodeId}
    (hrest : ∀ r ∈ rest, ∀ x d, a.Below r x → a.kind x ≠ .ok (.declare d)) :
    a.localsIn (locals ++ rest) = a.localsIn locals := by
  rw [Arena.localsIn, List.filterMap_append, Arena.localsIn, List.append_right_eq_self,
    List.filterMap_eq_nil_iff]
  intro r hr
  cases hnode : a.node? r with
  | none => rfl
  | some node =>
    obtain ⟨k, span⟩ := node
    have hk : a.kind r = .ok k := Arena.kind_eq_ok_iff.2 ⟨span, Arena.node_eq_ok_iff.2 hnode⟩
    cases k with
    | declare d => exact absurd hk (hrest r hr r d (.self r))
    | _ => rfl

/-- A local holds no variable node. -/
theorem not_var_of_declare {lo l d v : Nat} {name : String} (htree : a.Tree lo l)
    (hl : a.kind l = .ok (.declare d)) (hv : a.Below l v) : a.kind v ≠ .ok (.var name) := by
  cases hv with
  | self => simp [hl]
  | child hk hmem hv =>
    cases hl.symm.trans hk
    cases List.mem_singleton.1 hmem
    obtain ⟨b, hb⟩ := htree.isDeclaration_declare hl
    exact not_below_declaration hb hv

/-- The code in a local is the local itself. -/
theorem eq_of_declare {lo l d v : Nat} {k : NodeKind} (htree : a.Tree lo l)
    (hl : a.kind l = .ok (.declare d)) (hv : a.Below l v) (hk : a.kind v = .ok k)
    (hcode : IsCode k) :
    v = l := by
  cases hv with
  | self => rfl
  | child hk' hmem hv =>
    cases hl.symm.trans hk'
    cases List.mem_singleton.1 hmem
    obtain ⟨b, hb⟩ := (htree.isDeclaration_declare hl).of_below hv
    cases hk.symm.trans hb
    simp [IsCode, NodeKind.role] at hcode

/-- A body is its locals and the trees behind them, which declare nothing. -/
structure BodyParts (a : Arena) (f : FunctionNode) (lo id : Nat) (locals : List NodeId)
    (parts : List (Nat × Nat)) (mid : Nat) : Prop where
  body : f.body = locals ++ parts.map Prod.fst
  declare : ∀ l : Nat, l ∈ locals → ∃ d start : Nat, a.kind l = .ok (.declare d) ∧ a.Tree start l ∧
    (lo < l ∧ l ≤ id) ∧ lo < d ∧ d ≤ id
  tiles : Arena.Tiles mid parts id
  le : lo ≤ mid
  trees : ∀ p ∈ parts, a.Tree p.2 p.1 ∧ ∀ x d, a.Below p.1 x → a.kind x ≠ .ok (.declare d)

theorem exists_body_parts {lo id : Nat} (hk : a.kind id = .ok (.function f)) (htree : a.Tree lo id)
    (hfirst : a.LocalsFirst f.body) : ∃ locals parts mid, BodyParts a f lo id locals parts mid := by
  obtain ⟨locals, rest, hbody, hdeclare, hrest⟩ := hfirst
  have hchild : ∀ c : Nat, c ∈ f.body → ∃ start, a.Tree start c ∧ lo ≤ start ∧ c < id :=
    fun c hc => htree.child hk (List.mem_append_right _ hc)
  obtain ⟨parts, hk', -, hchildren, htiles, -, htrees⟩ := htree
  obtain rfl := Except.ok.inj (hk.symm.trans hk')
  rw [NodeKind.children, hbody, ← List.append_assoc] at hchildren
  obtain ⟨front, back, rfl, -, rfl⟩ := List.map_eq_append_iff.1 hchildren
  obtain ⟨mid, htfront, htback⟩ := htiles.append
  have hmid := (htfront.bounds fun p hp => (htrees p (by simp [hp])).lt).1
  refine ⟨locals, back, mid, hbody, fun l hl => ?_, htback, by omega, fun p hp =>
    ⟨htrees p (by simp [hp]), hrest p.1 (List.mem_map_of_mem hp)⟩⟩
  obtain ⟨d, hd⟩ := hdeclare l hl
  obtain ⟨start, hsub, hlo, hlt⟩ := hchild l (by simp [hbody, hl])
  obtain ⟨hd', hlt'⟩ := hsub.only_child hd rfl
  have hstart := hd'.lt
  exact ⟨d, start, hd, hsub, ⟨by omega, by omega⟩, by omega, by omega⟩

namespace BodyParts

variable {lo id mid : Nat} {locals : List NodeId} {parts : List (Nat × Nat)}

theorem variablesOf_eq (h : BodyParts a f lo id locals parts mid) :
    a.variablesOf f = a.parametersAs f.params ++ a.localsAs locals := by
  rw [Arena.variablesOf, h.body, Arena.localsAs, localsIn_append, Arena.localsAs]
  intro r hr
  obtain ⟨p, hp, rfl⟩ := List.mem_map.1 hr
  exact (h.trees p hp).2

theorem below_iff (h : BodyParts a f lo id locals parts mid) (v : Nat) :
    (∃ r ∈ f.body, a.Below r v) ↔
      (∃ l ∈ locals, a.Below l v) ∨ ∃ p ∈ parts, a.Below p.1 v := by
  rw [h.body]
  constructor
  · rintro ⟨r, hr, hv⟩
    rcases List.mem_append.1 hr with hr | hr
    · exact .inl ⟨r, hr, hv⟩
    · obtain ⟨p, hp, rfl⟩ := List.mem_map.1 hr
      exact .inr ⟨p, hp, hv⟩
  · rintro (⟨l, hl, hv⟩ | ⟨p, hp, hv⟩)
    · exact ⟨l, List.mem_append_left _ hl, hv⟩
    · exact ⟨p.1, List.mem_append_right _ (List.mem_map_of_mem hp), hv⟩

/-- Only what lies behind the locals uses variables. -/
theorem uses_iff (h : BodyParts a f lo id locals parts mid) (see : String → Option Meaning) :
    BodyUses a f see ↔ ∀ v name, (∃ p ∈ parts, a.Below p.1 v) → a.kind v = .ok (.var name) →
      ∃ m, see name = some m ∧ m.IsVariable := by
  refine ⟨fun huses v name hv hkv => ?_, fun huses r hr v name hv hkv => ?_⟩
  · obtain ⟨r, hr, hv⟩ := (h.below_iff v).2 (.inr hv)
    exact huses r hr v name hv hkv
  · rcases (h.below_iff v).1 ⟨r, hr, hv⟩ with ⟨l, hl, hv⟩ | hv
    · obtain ⟨d, start, hd, hsub, -⟩ := h.declare l hl
      exact absurd hkv (not_var_of_declare hsub hd hv)
    · exact huses v name hv hkv

/-- The locals, behind the parameters. -/
theorem decides_locals (h : BodyParts a f lo id locals parts mid)
    (hfree : Free s.table (a.parametersAs f.params)) (hin : Enclosed a u s')
    (hdecl : Declares 0 (fun i => lo < i ∧ i ≤ id) (a.parametersAs f.params) s s') :
    Decides (locals.forM (bindNode a a.depthLimit)) s' (Free s.table (a.variablesOf f)) fun _ s'' =>
      Enclosed a u s'' ∧ Declares 0 (fun i => lo < i ∧ i ≤ id) (a.variablesOf f) s s'' ∧
        ∀ l ∈ locals, SemanticInfo.row s''.scopes l = some s''.table.current := by
  have hmany : Decides (locals.forM (bindNode a (2 * a.size + 1 + 1))) s' _ _ :=
    decides_bindLocals (T := fun i => lo < i ∧ i ≤ id) (fun l hl => by
      obtain ⟨d, start, hd, hsub, hT⟩ := h.declare l hl
      exact ⟨d, hd, hsub.isDeclaration_declare hd, hT⟩) hin
  refine (hmany.congr ?_).mono ?_
  · rw [h.variablesOf_eq, hdecl.free_append, and_iff_right hfree]
  · rintro _ s'' - - ⟨hin', hdecl', hmarked⟩
    rw [h.variablesOf_eq]
    exact ⟨hin', hdecl.append hdecl', hmarked⟩

/-- The trees, behind all variables. -/
theorem decides_parts (h : BodyParts a f lo id locals parts mid)
    (hstatement : ∀ r ∈ f.body, a.HasRole .statement r) (hin : Enclosed a u s)
    (hin' : Enclosed a u s')
    (hdecl : Declares 0 (fun i => lo < i ∧ i ≤ id) (a.variablesOf f) s s') :
    Decides ((parts.map Prod.fst).forM (bindNode a a.depthLimit)) s'
      (BodyUses a f (seenWith s.table (a.variablesOf f))) fun _ s'' =>
      Resolved a mid (id - 1) (fun v => ∃ p ∈ parts, a.Below p.1 v) s' s'' := by
  have hone : ∀ p ∈ parts, ∀ s, Enclosed a u s → Decides (bindNode a a.depthLimit p.1) s
      (Uses a (a.Below p.1) s.table) fun _ s' => Resolved a p.2 p.1 (a.Below p.1) s s' := by
    intro p hp s hs
    obtain ⟨k, hkp, hrole⟩ := hstatement p.1 (by simp [h.body, List.mem_map_of_mem hp])
    have hle := Arena.le_size_of_kind hkp
    exact decides_bindNode (h.trees p hp).1 (by unfold Arena.depthLimit; omega) ⟨k, hkp, .inr hrole⟩
      (h.trees p hp).2 hs
  refine (decides_bindNodes h.tiles (fun p hp => (h.trees p hp).1) hone hin').congr ?_
  rw [h.uses_iff]
  simp only [Uses, SymbolTable.Sees, hdecl.seen?_eq hin]

/-- With the locals marked and the trees resolved, the body is resolved. -/
theorem resolved (h : BodyParts a f lo id locals parts mid)
    (hmarked : ∀ l ∈ locals, SemanticInfo.row s.scopes l = some s.table.current)
    (hresolved : Resolved a mid (id - 1) (fun v => ∃ p ∈ parts, a.Below p.1 v) s s') :
    BodyResolved a f s' := by
  refine ⟨fun r hr v k hv hkv hcode => ?_, fun r hr v name hv hkv => ?_⟩ <;>
  rcases (h.below_iff v).1 ⟨r, hr, hv⟩ with ⟨l, hl, hv⟩ | hv
  · obtain ⟨d, start, hd, hsub, -⟩ := h.declare l hl
    obtain rfl := eq_of_declare hsub hd hv hkv hcode
    exact hresolved.spares.marked (Arena.bounds_of_kind hkv).1 (hmarked v hl)
  · rw [hresolved.table]
    exact hresolved.marked v hv
  · obtain ⟨d, start, hd, hsub, -⟩ := h.declare l hl
    exact absurd hkv (not_var_of_declare hsub hd hv)
  · rw [hresolved.table]
    exact hresolved.resolves v name hv hkv

end BodyParts

/-- A body asks for variables with free names, and uses only variables. -/
theorem decides_bindBody {lo id : Nat} (hk : a.kind id = .ok (.function f)) (htree : a.Tree lo id)
    (hfirst : a.LocalsFirst f.body) (hin : Enclosed a u s) :
    Decides (do declareParameters a 0 f.params; f.body.forM (bindNode a a.depthLimit)) s
      (Free s.table (a.variablesOf f) ∧ BodyUses a f (seenWith s.table (a.variablesOf f)))
      fun _ s' =>
      Enclosed a u s' ∧ Declares 0 (fun i => lo < i ∧ i ≤ id) (a.variablesOf f) s s' ∧
        BodyResolved a f s' := by
  obtain ⟨locals, parts, mid, hparts⟩ := exists_body_parts hk htree hfirst
  have happend : f.body.forM (bindNode a a.depthLimit) = (do
      locals.forM (bindNode a a.depthLimit)
      (parts.map Prod.fst).forM (bindNode a a.depthLimit)) := by
    rw [hparts.body]
    exact List.forM_append
  rw [happend]
  have hparams : Decides (declareParameters a 0 f.params) s (Free s.table (a.parametersAs f.params))
      fun _ s' => Enclosed a u s' ∧
        Declares 0 (fun i => lo < i ∧ i ≤ id) (a.parametersAs f.params) s s' := by
    refine decides_declareParameters (fun d hd => ⟨htree.isDeclaration_param hk hd, ?_⟩) hin
    obtain ⟨start, hsub, hlo, hlt⟩ := htree.child hk (List.mem_append_left _ hd)
    exact ⟨Nat.lt_of_le_of_lt hlo hsub.lt, Nat.le_of_lt hlt⟩
  have hback := fun s₂ (h₂ : Enclosed a u s₂) =>
    hparts.decides_parts (fun r hr => htree.isStatement_body hk hr) hin h₂
  have hall := hparams.bind fun hfree _ s₁ _ h₁ => (hparts.decides_locals hfree h₁.1 h₁.2).bind
    fun _ _ s₂ _ h₂ => (hback s₂ h₂.1 h₂.2.1).mono
      (R := fun _ s₃ => Enclosed a u s₃ ∧
        Declares 0 (fun i => lo < i ∧ i ≤ id) (a.variablesOf f) s s₃ ∧ BodyResolved a f s₃) ?_
  · exact hall.congr ⟨fun h => h.2, fun h => ⟨(hparts.variablesOf_eq ▸ h.1).of_append, h⟩⟩
  · obtain ⟨hin₂, hdecl₂, hmarked⟩ := h₂
    rintro _ s₃ - - hres
    have hle := hparts.le
    have hspares := hres.spares.mono (U := fun i => lo < i ∧ i ≤ id) fun i hi =>
      ⟨by omega, by omega⟩
    exact ⟨hin₂.congr hres.table hres.spares.sizes, hdecl₂.before hspares hres.table,
      hparts.resolved hmarked hres⟩

/-! ### Scopes of members -/

/-- The pass between two members. -/
structure Level (a : Arena) (u : UnitNode) (s : State) : Prop extends Outside a u s where
  rows : s.scopes.size = a.size
  parents : ∀ c sc, s.table.scope? c = some sc → c ≠ ScopeId.global →
    sc.parent = some ScopeId.global

theorem Level.pos (h : Level a u s) : 0 < s.table.current := by
  rw [h.current]
  exact Nat.one_pos

theorem Level.exists_global (h : Level a u s) :
    ∃ sc, s.table.scope? s.table.current = some sc := by
  obtain ⟨g, hg, -⟩ := h.table.root
  exact ⟨g, h.current ▸ hg⟩

theorem Level.global_le (h : Level a u s) : ScopeId.global ≤ s.table.scopes.size := by
  obtain ⟨g, hg, -⟩ := h.table.root
  obtain ⟨-, hg⟩ := SymbolTable.scope?_eq_some_iff.1 hg
  exact (Array.getElem?_eq_some_iff.1 hg).1

theorem Level.recordScope (h : Level a u s) (id : Nat) :
    Level a u { s with scopes := SemanticInfo.setRow s.scopes id s.table.current } :=
  ⟨⟨h.table, h.current, h.size⟩, by simp [h.rows], h.parents⟩

/-- The tables in a new scope that knows one name. -/
def State.entered (s : State) (name : String) (e : EntryId) : State :=
  { s with table := s.table.pushScope.bind name e }

/-- The tables back in the scope around. -/
def State.left (s : State) : State := { s with table := s.table.popScope }

theorem Level.entered (h : Level a u s) {name : String} {e : Nat} {x : Entry}
    (hx : s.table.entry e = .ok x) (hname : x.name = name) (hvar : ¬x.meaning.IsVariable) :
    Enclosed a u (s.entered name e) := by
  obtain ⟨htable, hscope⟩ := h.table.enter (P := fun _ => True) h.current hx hname (by
    intro ty ref cls d heq
    exact hvar (heq ▸ trivial))
  exact ⟨⟨htable, hscope, h.size⟩, h.rows⟩

/-- What a new scope adds to the tables. -/
structure Opens (T : Nat → Prop) (name : String) (m : Meaning) (L : List (String × Meaning))
    (s s' : State) : Prop extends Spares 1 T s s' where
  /-- The new scope knows its own name and the names declared in it. -/
  inner : ∀ n, s'.table.meaning? (s.table.scopes.size + 1) n =
    (if n = name then some m else none).or (L.lookup n)
  outer : ∀ c ≤ s.table.scopes.size, ∀ n, s'.table.meaning? c n = s.table.meaning? c n

/-- A scope that is opened behind a declaration. -/
theorem Declares.opens {name : String} {m : Meaning} (h : Declares n T L s s')
    (ho : Opens T name m L' s' s'') (hle : s.table.current ≤ s.table.scopes.size) :
    Declares (n + 1) T L s s'' := by
  have hcount := h.count
  refine ⟨h.toSpares.trans ho.toSpares, fun other => ?_, fun c hc hne other => ?_⟩
  · rw [ho.outer _ (Nat.le_trans hle (by omega)), h.here]
  · rw [ho.outer c (by omega), h.elsewhere c hc hne]

theorem scope?_entered {name : String} {e : Nat} {c : Nat} (hc : c ≤ s.table.scopes.size) :
    (s.entered name e).table.scope? c = s.table.scope? c := by
  have hcurrent : s.table.pushScope.current = s.table.scopes.size + 1 := rfl
  refine (SymbolTable.scope?_bind (Nat.succ_pos _)).trans ?_
  rw [hcurrent, if_neg (by omega), SymbolTable.scope?_pushScope, if_neg (by omega)]

theorem Level.left (h : Level a u s) {name : String} {e : Nat} {x : Entry}
    (hx : s.table.entry e = .ok x) (hin : Enclosed a u s')
    (hdecl : Declares 0 T L (s.entered name e) s') :
    Level a u s'.left ∧ Opens T name x.meaning L s s'.left := by
  have hcurrent : (s.entered name e).table.current = s.table.scopes.size + 1 := rfl
  have hcount : (s.entered name e).table.scopes.size = s.table.scopes.size + 1 := by
    simp [State.entered, SymbolTable.bind, SymbolTable.pushScope]
  have hcount' := hdecl.count
  obtain ⟨htable, hleft⟩ := hin.table.leave hin.scope
  have hold : ∀ c ≤ s.table.scopes.size, s'.table.scope? c = s.table.scope? c := by
    intro c hc
    rw [hdecl.scopes c (by omega) (by rw [hcurrent]; omega), scope?_entered hc]
  have hspares : Spares 1 T s s'.left := by
    refine ⟨hleft.trans h.current.symm, ?_, fun e x hx => hdecl.grows e x hx, fun c hc _ =>
      hold c hc, hdecl.rows, fun i hi => ?_, hdecl.sizes⟩
    · change s'.table.scopes.size = _
      omega
    · refine (hdecl.marks i hi).imp_right ?_
      rintro ⟨c, hc, hcase⟩
      have hnew : c = s.table.scopes.size + 1 := hcase.resolve_right (by omega)
      refine ⟨c, hc, .inr ?_⟩
      change s.table.scopes.size < c ∧ c ≤ s'.table.scopes.size
      omega
  refine ⟨⟨⟨htable, hleft, hin.size⟩, hin.rows, fun (c : Nat) sc hsc hne => ?_⟩, hspares,
    fun n => ?_, fun c hc n => ?_⟩
  · have hsc : s'.table.scope? c = some sc := hsc
    by_cases hc : c ≤ s.table.scopes.size
    · exact h.parents c sc (hold c hc ▸ hsc) hne
    · obtain ⟨hpos, hget⟩ := SymbolTable.scope?_eq_some_iff.1 hsc
      obtain ⟨hlt, -⟩ := Array.getElem?_eq_some_iff.1 hget
      obtain ⟨sc', hsc', hparent, -⟩ := hin.scope.scope
      have hnew : c = s.table.scopes.size + 1 := by omega
      rw [hdecl.current, hcurrent, ← hnew] at hsc'
      cases hsc.symm.trans hsc'
      exact hparent
  · have hhere := hdecl.here n
    rw [hcurrent] at hhere
    refine hhere.trans ?_
    congr 1
    exact (SymbolTable.meaning?_enter hx).trans (if_pos rfl)
  · refine (hdecl.elsewhere c (by omega) (by rw [hcurrent]; omega) n).trans ?_
    exact (SymbolTable.meaning?_enter hx).trans (if_neg (by omega))

theorem outcome_inScope {name : String} {e : EntryId} {body : BindM Unit} :
    outcome (inScope name e body) s =
      ((outcome body (s.entered name e)).1, (outcome body (s.entered name e)).2.left) := rfl

/-- A body decides for the member around it. -/
theorem decides_inScope {name : String} {e : Nat} {body : BindM Unit} {P : Prop} {Q : State → Prop}
    {R : State → Prop} (hbody : Decides body (s.entered name e) P fun _ s' => Q s')
    (hQ : ∀ s', P → Q s' → R s'.left) : Decides (inScope name e body) s P fun _ s' => R s' := by
  refine ⟨fun hp => ?_, fun hp => ?_⟩
  · obtain ⟨_, t, ht, hq⟩ := hbody.accepts hp
    refine ⟨(), t.left, ?_, hQ t hp hq⟩
    rw [Succeeds, outcome_inScope, ht]
  · obtain ⟨e, t, he⟩ := hbody.rejects hp
    exact ⟨e, t.left, by rw [outcome_inScope, he]⟩

/-- A new scope takes distinct names that differ from its own. -/
theorem free_entered {name : String} {e : Nat} {x : Entry} (hx : s.table.entry e = .ok x) :
    Free (s.entered name e).table L ↔ (name :: L.map Prod.fst).Nodup := by
  have hnew : ∀ n, (s.entered name e).table.meaning? (s.entered name e).table.current n = none ↔
      n ≠ name := by
    intro n
    have hcurrent : (s.entered name e).table.current = s.table.scopes.size + 1 := rfl
    rw [hcurrent, State.entered, SymbolTable.meaning?_enter hx, if_pos rfl]
    by_cases h : n = name <;> simp [h]
  rw [Free, List.nodup_cons]
  simp only [hnew]
  grind

/-! ### Globals and records -/

theorem Level.declared (h : Level a u s) {id : Nat} {name : String} {m : Meaning}
    (hm : m.Describes a u name) (hvar : ∀ ty ref cls d, m = .var ty ref cls d → cls = .global)
    (span : Span) : Level a u (s.declared id name m span) := by
  refine ⟨⟨h.table.declare h.pos span hm fun _ => hvar, h.current, h.size⟩,
    by simp [State.declared, h.rows], fun c sc hc hne => h.parents c sc ?_ hne⟩
  rw [← h.current] at hne
  exact ((SymbolTable.scope?_declare h.pos).trans (if_neg hne)).symm.trans hc

/-- A global asks for a free name. -/
theorem decides_bindGlobal {id : Nat} {b : Binder} (hk : a.kind id = .ok (.declaration b))
    (hid : id ∈ u.globals) (hT : T id) (hlevel : Level a u s) :
    Decides (declareVariable a id .global) s (s.table.meaning? s.table.current b.name = none)
      fun _ s' => Level a u s' ∧
        Declares 0 T [(b.name, .var b.ty b.isReference .global id)] s s' := by
  obtain ⟨sc, hsc⟩ := hlevel.exists_global
  refine (decides_declareVariable hk hlevel.table.linked hsc).mono ?_
  rintro _ _ hfresh - ⟨span, rfl⟩
  refine ⟨hlevel.declared (m := .var b.ty b.isReference .global id) ⟨hk, fun _ => hid⟩
    (fun _ _ _ _ heq => by cases heq; rfl) span, ?_⟩
  exact declares_declared hlevel.table.linked hlevel.pos hsc
    (by rw [hlevel.rows]; exact Arena.bounds_of_kind hk) hfresh hT

theorem binders_eq {ids : List NodeId} (h : ∀ d ∈ ids, a.IsDeclaration d) :
    binders a ids = .ok (a.bindersOf ids) := by
  have hmap : ids.mapM a.binder? = .ok (ids.map fun id => (a.node? id).bind (·.kind.binder?)) := by
    rw [Outcome.mapM_eq_ok, List.forall₂_map_right_iff, List.forall₂_same]
    intro d hd
    obtain ⟨b, hb⟩ := h d hd
    obtain ⟨span, hnode⟩ := Arena.kind_eq_ok_iff.1 hb
    rw [Arena.binder?, hb, Arena.node_eq_ok_iff.1 hnode]
    rfl
  rw [binders, hmap, Arena.bindersOf]
  simp [Outcome.ok_bind, List.filterMap_map, pure, Except.pure]

/-- A record asks for a free name, and for fields with distinct names that differ from it. -/
theorem decides_bindRecord {lo id : Nat} {r : RecordNode} (hk : a.kind id = .ok (.record r))
    (htree : a.Tree lo id) (hid : id ∈ u.records) (hT : ∀ i, lo < i → i ≤ id → T i)
    (hlevel : Level a u s) :
    Decides (bindRecord a id) s (s.table.meaning? s.table.current r.name = none ∧
        (r.name :: a.names r.fields).Nodup) fun _ s' =>
      Level a u s' ∧ Declares 1 T [(r.name,
        .record ((a.bindersOf r.fields).map fun b => ⟨b.name, b.ty⟩) id)] s s' := by
  obtain ⟨span, hnode⟩ := Arena.kind_eq_ok_iff.1 hk
  obtain ⟨hpos, hle⟩ := Arena.bounds_of_kind hk
  obtain ⟨sc, hsc⟩ := hlevel.exists_global
  have hfields : ∀ d ∈ r.fields, a.IsDeclaration d ∧ T d := by
    intro d hd
    obtain ⟨start, hsub, hlo, hlt⟩ := htree.child hk hd
    exact ⟨htree.isDeclaration_field hk hd,
      hT d (Nat.lt_of_le_of_lt hlo hsub.lt) (Nat.le_of_lt hlt)⟩
  have hbs := binders_eq fun d hd => (hfields d hd).1
  unfold bindRecord
  refine .bind_total (succeeds_lift_ok hnode) ?_
  refine (decides_ensureFresh hlevel.table.linked hsc).bind fun hfresh _ t _ ht => ?_
  subst ht
  have hdeclared : Succeeds (declare r.name (.record ((a.bindersOf r.fields).map fun b =>
      ⟨b.name, b.ty⟩)
      id) span) { t with scopes := SemanticInfo.setRow t.scopes id t.table.current }
      (t.table.entries.size + 1) (t.declared id r.name
        (.record ((a.bindersOf r.fields).map fun b => ⟨b.name, b.ty⟩) id) span) := rfl
  refine .bind_total (succeeds_recordScope id) (.bind_total (succeeds_lift_ok hbs)
    (.bind_total hdeclared ?_))
  have hdecl : Declares 0 T [(r.name, .record ((a.bindersOf r.fields).map fun b =>
      ⟨b.name, b.ty⟩) id)]
      t (t.declared id r.name _ span) := declares_declared hlevel.table.linked hlevel.pos hsc
    (by rw [hlevel.rows]; exact Arena.bounds_of_kind hk) hfresh (hT id htree.lt (Nat.le_refl _))
  have hdescribes : (Meaning.record ((a.bindersOf r.fields).map fun b => ⟨b.name, b.ty⟩)
      id).Describes
      a u r.name := ⟨hid, r, _, hk, rfl, hbs, rfl⟩
  have hlevel' : Level a u (t.declared id r.name
      (.record ((a.bindersOf r.fields).map fun b => ⟨b.name, b.ty⟩) id) span) :=
    hlevel.declared hdescribes (by simp) span
  have hx : (t.declared id r.name (.record ((a.bindersOf r.fields).map fun b => ⟨b.name, b.ty⟩) id)
      span).table.entry (t.table.entries.size + 1) = .ok ⟨r.name, t.table.current, span, _⟩ :=
    SymbolTable.entry_declare.2 (.inr ⟨rfl, rfl⟩)
  have hbody := (decides_declareFields hfields (hlevel'.entered hx rfl fun h => h)).congr
    (free_entered hx)
  rw [Arena.map_fst_filterMap] at hbody
  refine decides_inScope hbody fun t' _ ⟨hin, hinner⟩ => ?_
  obtain ⟨hleft, hopens⟩ := hlevel'.left hx hin hinner
  exact ⟨hleft, hdecl.opens hopens (hlevel.current ▸ hlevel.global_le)⟩

/-! ### Functions -/

theorem blockReturns_spec {lo b : Nat} (htree : a.Tree lo b) :
    ∃ v, blockReturns a b = .ok v ∧ (v = true ↔ a.BlockReturns b) := by
  obtain ⟨k, hk⟩ := htree.within.kind
  unfold blockReturns
  rw [hk]
  cases k with
  | block body =>
    have hreturn : ∀ r ∈ body, ∃ v, (do return (← a.kind r).isReturn : Except Fault Bool) = .ok v ∧
        (v = true ↔ ∃ value, a.kind r = .ok (.ret value)) := by
      intro r hr
      obtain ⟨start, hsub, -⟩ := htree.child hk hr
      obtain ⟨k, hkr⟩ := hsub.within.kind
      refine ⟨k.isReturn, by rw [hkr]; rfl, ?_⟩
      cases k <;> simp [NodeKind.isReturn, hkr]
    obtain ⟨v, hv, hiff⟩ := Outcome.exists_anyM hreturn
    refine ⟨v, hv, hiff.trans ?_⟩
    simp [Arena.BlockReturns, hk]
  | _ => exact ⟨false, rfl, by simp [Arena.BlockReturns, hk]⟩

theorem returns_spec {lo r : Nat} (htree : a.Tree lo r) :
    ∃ v, returns a r = .ok v ∧ (v = true ↔ a.Returns r) := by
  obtain ⟨k, hk⟩ := htree.within.kind
  unfold returns
  rw [hk]
  cases k with
  | ret value => exact ⟨true, rfl, by simp [Arena.Returns, hk]⟩
  | branch condition onTrue onFalse =>
    have hbranch : ∀ b ∈ onTrue :: onFalse.toList, ∃ v, blockReturns a b = .ok v ∧
        (v = true ↔ a.BlockReturns b) := by
      intro b hb
      obtain ⟨start, hsub, -⟩ := htree.child hk (List.mem_cons_of_mem _ hb)
      exact blockReturns_spec hsub
    obtain ⟨v, hv, hiff⟩ := Outcome.exists_anyM hbranch
    refine ⟨v, hv, hiff.trans ?_⟩
    simp [Arena.Returns, hk]
  | _ => exact ⟨false, rfl, by simp [Arena.Returns, hk]⟩

/-- Two checks that are made only under a condition. -/
theorem Decides.guard_guard {α β : Type} {c p q P : Prop} [Decidable c] [Decidable p] [Decidable q]
    {cause cause' : SemanticError.Cause} {span span' : Span} {k k' : β → BindM α} {x : BindM α}
    {Q : α → State → Prop} (hx : Decides x s P Q) :
    Decides (if c then if p then Binding.fail cause span >>= k
        else if q then Binding.fail cause' span' >>= k' else x else x) s ((c → ¬p ∧ ¬q) ∧ P) Q := by
  by_cases hc : c
  · rw [if_pos hc]
    refine (Decides.guard fun _ => Decides.guard fun _ => hx).congr ?_
    tauto
  · rw [if_neg hc]
    refine hx.congr ?_
    tauto

/-- The overload a function adds to its name. -/
def overloadOf (a : Arena) (id : NodeId) (f : FunctionNode) : Signature :=
  ⟨f.returnType, a.bindersOf f.params, some id⟩

/-- A name stands for a global variable. -/
def GlobalVariable (t : SymbolTable) (name : String) : Prop :=
  ∃ m, t.meaning? ScopeId.global name = some m ∧ m.IsVariable

/-- Every variable in the body of a function is one of its own or a global one. -/
def UsesKnown (a : Arena) (f : FunctionNode) (globals : String → Prop) : Prop :=
  ∀ r ∈ f.body, ∀ v name, a.Below r v → a.kind v = .ok (.var name) →
    name ∈ a.variableNames f ∨ globals name

/-- What binding has settled about the body of a function whose scope is `c`. -/
structure Settled (a : Arena) (f : FunctionNode) (c : Nat) (s : State) : Prop where
  scope : ∃ sc, s.table.scope? c = some sc
  inner : c ≠ ScopeId.global
  holds : ∀ name m, (name, m) ∈ a.variablesOf f → s.table.meaning? c name = some m
  marked : ∀ r ∈ f.body, ∀ v k, a.Below r v → a.kind v = .ok k → IsCode k →
    SemanticInfo.row s.scopes v = some c
  resolves : ∀ r ∈ f.body, ∀ v name, a.Below r v → a.kind v = .ok (.var name) → ∃ e x,
    SemanticInfo.row s.resolved v = some e ∧ s.table.entry e = .ok x ∧ x.name = name ∧
      ((name, x.meaning) ∈ a.variablesOf f ∨ name ∉ a.variableNames f ∧
        ∃ ty ref d, x.meaning = .var ty ref .global d)

theorem extended_eq_function (found : Option Meaning) (sig : Signature) :
    ∃ overloads, extended found sig = .function overloads := by
  unfold extended
  split <;> exact ⟨_, rfl⟩

theorem not_isVariable_extended (found : Option Meaning) (sig : Signature) :
    ¬(extended found sig).IsVariable := by
  obtain ⟨overloads, h⟩ := extended_eq_function found sig
  rw [h]
  exact fun h => h

/-- The name of a function gets one more overload. -/
theorem decides_register {id : Nat} {span : Span} (hk : a.kind id = .ok (.function f))
    (hbs : binders a f.params = .ok (a.bindersOf f.params)) (hid : id ∈ u.functions) (hT : T id)
    (hlevel : Level a u s) :
    Decides (registerOverload f.name (overloadOf a id f) span)
      { s with scopes := SemanticInfo.setRow s.scopes id s.table.current }
      (Takes (s.table.meaning? ScopeId.global f.name) (overloadOf a id f)) fun e t =>
      Level a u t ∧ Spares 0 T s t ∧ (∃ x, t.table.entry e = .ok x ∧ x.name = f.name ∧
        x.meaning = extended (s.table.meaning? ScopeId.global f.name) (overloadOf a id f)) ∧
      ∀ name, t.table.meaning? ScopeId.global name = if name = f.name then
        some (extended (s.table.meaning? ScopeId.global f.name) (overloadOf a id f))
        else s.table.meaning? ScopeId.global name := by
  obtain ⟨sc, hsc⟩ := hlevel.exists_global
  obtain ⟨hpos, hle⟩ := Arena.bounds_of_kind hk
  have hlevel' := hlevel.recordScope id
  have hmark := spares_recordScope (s := s) hpos hT (by rw [hlevel.rows]; exact hle)
  have hsig : (overloadOf a id f).Describes a u f.name := ⟨hid, f, hk, rfl, rfl, hbs⟩
  have hregister : Decides (registerOverload f.name (overloadOf a id f) span) _ _ _ :=
    decides_registerOverload hlevel'.table.linked hlevel'.pos hsc
  rw [← hlevel.current]
  refine hregister.mono fun e t _ hrun ⟨hscopes, hcount, ⟨x, hx, hm⟩, hothers, hmeaning⟩ => ?_
  obtain ⟨hout, hgrows, hresolved, y, hy, hname, -⟩ :=
    registerOverload_outside ⟨hlevel'.table, hlevel'.current, hlevel'.size⟩ hsig hrun
  cases hx.symm.trans hy
  have hcurrent : t.table.current = s.table.current := hout.current.trans hlevel.current.symm
  have hspares : Spares 0 T
      { s with scopes := SemanticInfo.setRow s.scopes id s.table.current } t :=
    ⟨hcurrent, hcount, hgrows, fun c _ hne => hothers c hne,
      fun i _ _ => ⟨by rw [hscopes], by rw [hresolved]⟩, fun i _ => .inl (by rw [hscopes]),
      by rw [hscopes], by rw [hresolved]⟩
  refine ⟨⟨hout, ?_, fun c sc hc hne => ?_⟩, hmark.trans hspares, ⟨x, hx, hname, hm⟩, hmeaning⟩
  · rw [hscopes]
    exact hlevel'.rows
  · have hkeep : t.table.scope? c = s.table.scope? c := hothers c (by rwa [hlevel.current])
    exact hlevel.parents c sc (hkeep ▸ hc) hne

/-- What a name with a variable behind it stands for: its own variables come first, then the
others. -/
theorem visible_iff {own name : String} {m m' : Meaning} {g : String → Option Meaning}
    (hnodup : (own :: L.map Prod.fst).Nodup) (hL : ∀ p ∈ L, p.2.IsVariable) (hm : ¬m.IsVariable)
    (hown : ∀ m', g own = some m' → ¬m'.IsVariable) :
    ((if name = own then some m else none).or (L.lookup name)).or (g name) = some m' ∧
        m'.IsVariable ↔
      (name, m') ∈ L ∨ name ∉ L.map Prod.fst ∧ g name = some m' ∧ m'.IsVariable := by
  obtain ⟨hnot, hkeys⟩ := List.nodup_cons.1 hnodup
  by_cases hname : name = own
  · subst hname
    have hmem : (name, m') ∉ L := fun h => hnot (List.mem_map_of_mem h)
    have hg : ¬(g name = some m' ∧ m'.IsVariable) := fun h => hown m' h.1 h.2
    have hself : ¬(m = m' ∧ m'.IsVariable) := fun h => hm (h.1 ▸ h.2)
    simp [hmem, hg, hself]
  · rw [if_neg hname, Option.none_or, Option.or_eq_some_iff, lookup_eq_some_iff hkeys,
      lookup_eq_none_iff]
    have hvar : (name, m') ∈ L → m'.IsVariable := fun h => hL _ h
    have hin : (name, m') ∈ L → name ∈ L.map Prod.fst := fun h => List.mem_map_of_mem h
    tauto

/-- What is seen in the scope of a function: the function itself, its variables, and what lies
outside. -/
theorem seenWith_entered {e : Nat} {x : Entry} (hx : s.table.entry e = .ok x)
    (hinner : s.table.scopes.size + 1 ≠ ScopeId.global) (name : String) :
    seenWith (s.entered f.name e).table (a.variablesOf f) name =
      ((if name = f.name then some x.meaning else none).or ((a.variablesOf f).lookup name)).or
        (s.table.meaning? ScopeId.global name) := by
  have hcurrent : (s.entered f.name e).table.current = s.table.scopes.size + 1 := rfl
  rw [seenWith, hcurrent, State.entered, SymbolTable.meaning?_enter hx,
    SymbolTable.meaning?_enter hx, if_pos rfl, if_neg hinner.symm]

/-- The variables that are seen in the scope of a function are its own, and the global ones that
they do not hide. -/
theorem seenWith_entered_iff {e : Nat} {x : Entry} (hx : s.table.entry e = .ok x)
    (hinner : s.table.scopes.size + 1 ≠ ScopeId.global) (hvar : ¬x.meaning.IsVariable)
    (hself : s.table.meaning? ScopeId.global f.name = some x.meaning)
    (hnodup : (f.name :: a.variableNames f).Nodup) (name : String) (m : Meaning) :
    seenWith (s.entered f.name e).table (a.variablesOf f) name = some m ∧ m.IsVariable ↔
      (name, m) ∈ a.variablesOf f ∨ name ∉ a.variableNames f ∧
        s.table.meaning? ScopeId.global name = some m ∧ m.IsVariable := by
  rw [← Arena.map_fst_variablesOf] at hnodup ⊢
  rw [seenWith_entered hx hinner]
  refine visible_iff hnodup (fun p hp => Arena.isVariable_of_mem_variablesOf hp) hvar
    fun m' hm' => ?_
  cases hself.symm.trans hm'
  exact hvar

/-- A variable that the global scope knows is declared as a global one. -/
theorem Level.eq_var_of_global (h : Level a u s) {name : String} {m : Meaning}
    (hm : s.table.meaning? ScopeId.global name = some m) (hvar : m.IsVariable) :
    ∃ ty ref d, m = .var ty ref .global d := by
  obtain ⟨g, e, y, hg, he, hy, -, rfl⟩ := h.table.linked.meaning?_eq_some hm
  cases hmeaning : y.meaning with
  | var ty ref cls d =>
    obtain rfl := h.table.globals g hg name e y ty ref cls d (Scope.mem_of_find? he) hy hmeaning
    exact ⟨ty, ref, d, rfl⟩
  | function | record =>
    rw [hmeaning] at hvar
    exact hvar.elim

/-- A body is bound in a scope of its own. -/
theorem decides_bindScope {lo id e : Nat} {x : Entry} (hk : a.kind id = .ok (.function f))
    (htree : a.Tree lo id) (hfirst : a.LocalsFirst f.body) (hlevel : Level a u s)
    (hx : s.table.entry e = .ok x) (hname : x.name = f.name) (hvar : ¬x.meaning.IsVariable)
    (hself : s.table.meaning? ScopeId.global f.name = some x.meaning) :
    Decides (inScope f.name e do
        declareParameters a 0 f.params
        f.body.forM (bindNode a a.depthLimit)) s
      ((f.name :: a.variableNames f).Nodup ∧ UsesKnown a f (GlobalVariable s.table))
      fun _ s' => Level a u s' ∧ Opens (fun i => lo < i ∧ i ≤ id) f.name x.meaning
        (a.variablesOf f) s s' ∧ Settled a f (s.table.scopes.size + 1) s' := by
  have henclosed := hlevel.entered hx hname hvar
  have hinner : s.table.scopes.size + 1 ≠ ScopeId.global := henclosed.scope.inner
  have hbody := decides_bindBody hk htree hfirst henclosed
  have hcurrent : (s.entered f.name e).table.current = s.table.scopes.size + 1 := rfl
  have hvisible := seenWith_entered_iff (a := a) hx hinner hvar hself
  rw [free_entered hx, Arena.map_fst_variablesOf] at hbody
  have hiff : (f.name :: a.variableNames f).Nodup ∧
      BodyUses a f (seenWith (s.entered f.name e).table (a.variablesOf f)) ↔
      (f.name :: a.variableNames f).Nodup ∧ UsesKnown a f (GlobalVariable s.table) := by
    refine and_congr_right fun hnodup => ?_
    have hmem : ∀ name, name ∈ a.variableNames f ↔ ∃ m, (name, m) ∈ a.variablesOf f := by
      simp [← Arena.map_fst_variablesOf]
    simp only [BodyUses, UsesKnown, GlobalVariable, hvisible hnodup, hmem]
    grind
  refine decides_inScope (hbody.congr hiff) fun t hp ⟨hin, hdecl, hres⟩ => ?_
  obtain ⟨hnodup, huses⟩ := hiff.2 hp
  obtain ⟨hleft, hopens⟩ := hlevel.left hx hin hdecl
  have hnow : t.table.current = s.table.scopes.size + 1 := hdecl.current.trans hcurrent
  obtain ⟨sc, hsc, -⟩ := hin.scope.scope
  refine ⟨hleft, hopens, ⟨sc, hnow ▸ hsc⟩, hinner, fun name m hmem => ?_,
    fun r hr v k hv hkv hcode => ?_, fun r hr v name hv hkv => ?_⟩
  · rw [← Arena.map_fst_variablesOf] at hnodup
    rw [hopens.inner, (lookup_eq_some_iff hnodup.of_cons).2 hmem]
    have hne : name ≠ f.name := by
      rintro rfl
      exact (List.nodup_cons.1 hnodup).1 (List.mem_map_of_mem hmem)
    simp [hne]
  · exact (hres.marked r hr v k hv hkv hcode).trans (by rw [hnow])
  · obtain ⟨e', y, hrow, hy, hyname, hseen⟩ := hres.resolves r hr v name hv hkv
    rw [hdecl.seen?_eq henclosed] at hseen
    obtain ⟨m, hm, hmvar⟩ := huses r hr v name hv hkv
    cases hseen.symm.trans hm
    have hown := (hvisible hnodup name y.meaning).1 ⟨hseen, hmvar⟩
    exact ⟨e', y, hrow, hy, hyname,
      hown.imp_right fun ⟨hnot, hglobal, _⟩ => ⟨hnot, hlevel.eq_var_of_global hglobal hmvar⟩⟩

/-- A name that takes an overload is no variable. -/
theorem Takes.not_isVariable {found : Option Meaning} {sig : Signature} (h : Takes found sig)
    {m : Meaning} (hm : found = some m) : ¬m.IsVariable := by
  subst hm
  cases m with
  | var | record => exact h.elim
  | function => exact fun h => h

/-- Functions with a result return from their body. -/
theorem decides_return {lo id : Nat} {span : Span} (hk : a.kind id = .ok (.function f))
    (htree : a.Tree lo id) :
    Decides (do
        if f.returnType ≠ .void && f.name ≠ "main" then
          let returned ← (f.body.anyM (returns a) : Except Fault Bool)
          if !returned then
            fail (.missingReturn f.name) span : BindM Unit) s
      (f.returnType ≠ .void ∧ f.name ≠ "main" → ∃ r ∈ f.body, a.Returns r) fun _ s' => s' = s := by
  have hspec : ∀ r ∈ f.body, ∃ v, returns a r = .ok v ∧ (v = true ↔ a.Returns r) := by
    intro r hr
    obtain ⟨start, hsub, -⟩ := htree.child hk (List.mem_append_right _ hr)
    exact returns_spec hsub
  obtain ⟨returned, hreturned, hreturns⟩ := Outcome.exists_anyM hspec
  have hdone : Decides (pure () : BindM Unit) s True fun _ s' => s' = s :=
    (Decides.pure ()).mono fun _ _ _ _ h => h.2
  by_cases hneeds : f.returnType ≠ .void ∧ f.name ≠ "main"
  · rw [if_pos (by simpa using hneeds)]
    refine .bind_total (succeeds_lift_ok hreturned) ?_
    cases returned with
    | true => exact hdone.congr (by simpa [hneeds] using hreturns)
    | false => exact (Decides.fail _ _).congr (by simpa [hneeds] using hreturns)
  · rw [if_neg (by simpa using hneeds)]
    exact hdone.congr (by simp [hneeds])

/-- What a function adds to the tables. -/
structure FunctionBound (a : Arena) (u : UnitNode) (f : FunctionNode) (lo id : Nat) (s s' : State) :
    Prop where
  level : Level a u s'
  spares : Spares 1 (fun i => lo < i ∧ i ≤ id) s s'
  meaning : ∀ name, s'.table.meaning? ScopeId.global name = if name = f.name then
    some (extended (s.table.meaning? ScopeId.global f.name) (overloadOf a id f))
    else s.table.meaning? ScopeId.global name
  settled : Settled a f (s.table.scopes.size + 1) s'

/-- The part of a function behind the checks of `main`. -/
theorem decides_registered {lo id : Nat} {span : Span} (hk : a.kind id = .ok (.function f))
    (htree : a.Tree lo id) (hid : id ∈ u.functions) (hfirst : a.LocalsFirst f.body)
    (hlevel : Level a u s) :
    Decides (do
        recordScope id
        let entry ← registerOverload f.name (overloadOf a id f) span
        inScope f.name entry do
          declareParameters a 0 f.params
          f.body.forM (bindNode a a.depthLimit)
        if f.returnType ≠ .void && f.name ≠ "main" then
          let returned ← (f.body.anyM (returns a) : Except Fault Bool)
          if !returned then
            fail (.missingReturn f.name) span : BindM Unit) s
      (Takes (s.table.meaning? ScopeId.global f.name) (overloadOf a id f) ∧
        ((f.name :: a.variableNames f).Nodup ∧ UsesKnown a f (GlobalVariable s.table)) ∧
        (f.returnType ≠ .void ∧ f.name ≠ "main" → ∃ r ∈ f.body, a.Returns r)) fun _ s' =>
      FunctionBound a u f lo id s s' := by
  have hbs := binders_eq fun d hd => htree.isDeclaration_param hk hd
  refine .bind_total (succeeds_recordScope id) ?_
  refine (decides_register (T := fun i => lo < i ∧ i ≤ id) hk hbs hid ⟨htree.lt, Nat.le_refl _⟩
    hlevel).bind fun htakes e t _ ⟨hlevel', hspares, ⟨x, hx, hname, hm⟩, hmeaning⟩ => ?_
  have hvar : ¬x.meaning.IsVariable := by
    rw [hm]
    exact not_isVariable_extended _ _
  have hglobals : GlobalVariable t.table = GlobalVariable s.table := by
    funext name
    unfold GlobalVariable
    rw [hmeaning]
    by_cases hown : name = f.name
    · -- the own name is a function before and after
      subst hown
      rw [if_pos rfl]
      refine propext ⟨?_, ?_⟩
      · rintro ⟨m, hm', hmv⟩
        cases hm'
        exact absurd hmv (not_isVariable_extended _ _)
      · rintro ⟨m, hm', hmv⟩
        exact absurd hmv (htakes.not_isVariable hm')
    · rw [if_neg hown]
  have hscope := decides_bindScope hk htree hfirst hlevel' hx hname hvar
    (by rw [hmeaning, if_pos rfl, hm])
  rw [hglobals] at hscope
  refine hscope.bind fun _ _ t' _ ⟨hleft, hopens, hsettled⟩ => ?_
  refine (decides_return hk htree).mono ?_
  rintro _ _ - - rfl
  have hcount := hspares.count
  refine ⟨hleft, hspares.trans hopens.toSpares, fun name => ?_, ?_⟩
  · rw [hopens.outer _ hlevel'.global_le, hmeaning]
  · rwa [hcount] at hsettled

/-- A function asks for a name that takes its overload and for its rules. -/
theorem decides_bindFunction {lo id : Nat} (hk : a.kind id = .ok (.function f))
    (htree : a.Tree lo id) (hid : id ∈ u.functions) (hfirst : a.LocalsFirst f.body)
    (hlevel : Level a u s) :
    Decides (bindFunction a id) s
      (Takes (s.table.meaning? ScopeId.global f.name) (overloadOf a id f) ∧
        a.FunctionRules (GlobalVariable s.table) f) fun _ s' => FunctionBound a u f lo id s s' := by
  obtain ⟨span, hnode⟩ := Arena.kind_eq_ok_iff.1 hk
  have hbs := binders_eq fun d hd => htree.isDeclaration_param hk hd
  unfold bindFunction
  refine .bind_total (succeeds_lift_ok hnode) ?_
  refine (Decides.guard_guard (.bind_total (succeeds_lift_ok hbs)
    (decides_registered hk htree hid hfirst hlevel))).congr ?_
  have hmain : (f.name = "main" → ¬f.returnType ≠ .int ∧ ¬(!f.params.isEmpty) = true) ↔
      (f.name = "main" → f.returnType = .int ∧ f.params = []) := by simp
  rw [hmain]
  exact ⟨fun ⟨hm, ht, ⟨hd, hu⟩, hr⟩ => ⟨ht, hm, hd, hu, hr⟩,
    fun ⟨ht, hm, hd, hu, hr⟩ => ⟨hm, ht, ⟨hd, hu⟩, hr⟩⟩

end Binding

end MiniJ
