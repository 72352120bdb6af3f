import MiniJ.Proofs.Arena.Coverage
import MiniJ.Proofs.Arena.Depth
import MiniJ.Proofs.Binding.Verdict

/-!
# Declarations and bodies

Declaring a list of variables asks for names that are free and distinct, and adds them to the
current scope. The statements behind the locals declare nothing: they ask for variables, resolve
them and note the scope they lie in.

## Main definitions

* `Binding.Spares` — what a part of the pass leaves alone.
* `Binding.Declares` — the names it adds to the current scope.
* `Binding.Resolved` — the nodes it resolves.

## Main statements

* `Binding.decides_declarations` — a list of declarations.
* `Binding.decides_bindNode` — a statement that declares nothing.
-/
namespace MiniJ

namespace Arena

/-- The variable that a node declares, by name. -/
def declaredAs? (a : Arena) (cls : VariableClass) (d : NodeId) : Option (String × Meaning) :=
  match a.node? d with
  | some ⟨.declaration b, _⟩ => some (b.name, .var b.ty b.isReference cls d)
  | _ => none

/-- The declarations that statements run. -/
def localsIn (a : Arena) (body : List NodeId) : List NodeId :=
  body.filterMap fun l => (a.node? l).bind (·.kind.declared?)

/-- Parameters by name, numbered in their order. -/
def parametersAs (a : Arena) (params : List NodeId) : List (String × Meaning) :=
  params.zipIdx.filterMap fun p => a.declaredAs? (.parameter p.2) p.1

/-- Locals by name. -/
def localsAs (a : Arena) (body : List NodeId) : List (String × Meaning) :=
  (a.localsIn body).filterMap (a.declaredAs? .localVariable)

/-- Parameters and locals of a function, by name. -/
def variablesOf (a : Arena) (f : FunctionNode) : List (String × Meaning) :=
  a.parametersAs f.params ++ a.localsAs f.body

theorem declaredAs?_of_kind {a : Arena} {d : Nat} {b : Binder} (h : a.kind d = .ok (.declaration b))
    (cls : VariableClass) :
    a.declaredAs? cls d = some (b.name, .var b.ty b.isReference cls d) := by
  obtain ⟨span, hnode⟩ := kind_eq_ok_iff.1 h
  rw [declaredAs?, node_eq_ok_iff.1 hnode]

end Arena

/-- A name is seen as a variable. -/
def SymbolTable.Sees (t : SymbolTable) (name : String) : Prop :=
  ∃ m, t.seen? name = some m ∧ m.IsVariable

namespace Binding

variable {a : Arena} {u : UnitNode} {s s' s'' : State} {n n' : Nat} {T U : Nat → Prop}
  {L L' : List (String × Meaning)}

/-! ### Frames -/

/-- The pass opens `n` scopes, changes no scope but the current one, and fills only rows of `T`. -/
structure Spares (n : Nat) (T : Nat → Prop) (s s' : State) : Prop where
  current : s'.table.current = s.table.current
  count : s'.table.scopes.size = s.table.scopes.size + n
  grows : Grows s.table s'.table
  scopes : ∀ c ≤ s.table.scopes.size, c ≠ s.table.current → s'.table.scope? c = s.table.scope? c
  rows : ∀ i, 0 < i → ¬T i → SemanticInfo.row s'.scopes i = SemanticInfo.row s.scopes i ∧
    SemanticInfo.row s'.resolved i = SemanticInfo.row s.resolved i
  /-- Rows are filled with the current scope or a scope that was opened. -/
  marks : ∀ i, 0 < i → SemanticInfo.row s'.scopes i = SemanticInfo.row s.scopes i ∨
    ∃ c : Nat, SemanticInfo.row s'.scopes i = some c ∧
      (c = s.table.current ∨ s.table.scopes.size < c ∧ c ≤ s'.table.scopes.size)
  sizes : s'.scopes.size = s.scopes.size ∧ s'.resolved.size = s.resolved.size

theorem Spares.refl (T : Nat → Prop) (s : State) : Spares 0 T s s :=
  ⟨rfl, rfl, .refl _, fun _ _ _ => rfl, fun _ _ _ => ⟨rfl, rfl⟩, fun _ _ => .inl rfl, rfl, rfl⟩

theorem Spares.trans (h : Spares n T s s') (h' : Spares n' T s' s'') :
    Spares (n + n') T s s'' := by
  have hcount := h.count
  have hcount' := h'.count
  refine ⟨h'.current.trans h.current, by omega, h.grows.trans h'.grows, fun c hc hne => ?_,
    fun i hi hout => ?_, fun i hi => ?_, h'.sizes.1.trans h.sizes.1, h'.sizes.2.trans h.sizes.2⟩
  · rw [h'.scopes c (by omega) (by rwa [h.current]), h.scopes c hc hne]
  · obtain ⟨hscopes, hresolved⟩ := h.rows i hi hout
    obtain ⟨hscopes', hresolved'⟩ := h'.rows i hi hout
    exact ⟨hscopes'.trans hscopes, hresolved'.trans hresolved⟩
  · rcases h'.marks i hi with heq | ⟨c, hc, hcur | hnew⟩
    · rw [heq]
      rcases h.marks i hi with heq | ⟨c, hc, hcase⟩
      · exact .inl heq
      · exact .inr ⟨c, hc, hcase.imp_right fun hnew => ⟨hnew.1, by omega⟩⟩
    · exact .inr ⟨c, hc, .inl (hcur.trans h.current)⟩
    · exact .inr ⟨c, hc, .inr ⟨by omega, hnew.2⟩⟩

theorem Spares.mono (h : Spares n T s s') (hT : ∀ i, T i → U i) : Spares n U s s' :=
  { h with rows := fun i hi hout => h.rows i hi fun ht => hout (hT i ht) }

/-- A node keeps the current scope once it has it. -/
theorem Spares.marked (h : Spares 0 T s s') {i : Nat} (hi : 0 < i)
    (hrow : SemanticInfo.row s.scopes i = some s.table.current) :
    SemanticInfo.row s'.scopes i = some s'.table.current := by
  have hcount := h.count
  rw [h.current]
  rcases h.marks i hi with heq | ⟨c, hc, rfl | hnew⟩
  · exact heq.trans hrow
  · exact hc
  · omega

theorem succeeds_recordScope (id : Nat) : Succeeds (recordScope id) s ()
    { s with scopes := SemanticInfo.setRow s.scopes id s.table.current } := rfl

/-- Filling the row of a node with the current scope. -/
theorem spares_recordScope {id : Nat} (hpos : 0 < id) (hid : T id)
    (hle : id ≤ s.scopes.size) :
    Spares 0 T s { s with scopes := SemanticInfo.setRow s.scopes id s.table.current } := by
  refine ⟨rfl, rfl, .refl _, fun _ _ _ => rfl, fun i hi hout => ⟨?_, rfl⟩,
    fun i hi => ?_, by simp, rfl⟩
  · exact SemanticInfo.row_setRow_of_ne hpos hi (fun heq => hout (heq ▸ hid)) _
  · by_cases heq : i = id
    · subst heq
      exact .inr ⟨_, SemanticInfo.row_setRow_self hpos hle _, .inl rfl⟩
    · exact .inl (SemanticInfo.row_setRow_of_ne hpos hi heq _)

/-- Filling the row of a resolved variable. -/
theorem spares_setResolved {id e : Nat} (hpos : 0 < id) (hid : T id) :
    Spares 0 T s { s with resolved := SemanticInfo.setRow s.resolved id e } :=
  ⟨rfl, rfl, .refl _, fun _ _ _ => rfl, fun _ hi hout => ⟨rfl,
    SemanticInfo.row_setRow_of_ne hpos hi (fun heq => hout (heq ▸ hid)) _⟩, fun _ _ =>
      .inl rfl, rfl,
    by simp⟩

/-! ### Declarations -/

/-- The pass adds names to the current scope, which did not have them. -/
structure Declares (n : Nat) (T : Nat → Prop) (L : List (String × Meaning)) (s s' : State) : Prop
    extends Spares n T s s' where
  here : ∀ name, s'.table.meaning? s.table.current name =
    (s.table.meaning? s.table.current name).or (L.lookup name)
  elsewhere : ∀ c ≤ s.table.scopes.size, c ≠ s.table.current → ∀ name,
    s'.table.meaning? c name = s.table.meaning? c name

theorem Declares.nil (T : Nat → Prop) (s : State) : Declares 0 T [] s s :=
  ⟨.refl T s, fun _ => by simp, fun _ _ _ _ => rfl⟩

theorem Declares.append (h : Declares n T L s s') (h' : Declares n' T L' s' s'') :
    Declares (n + n') T (L ++ L') s s'' := by
  have hcount := h.count
  refine ⟨h.toSpares.trans h'.toSpares, fun name => ?_, fun c hc hne name => ?_⟩
  · have hhere := h'.here name
    rw [h.current] at hhere
    rw [hhere, h.here name, List.lookup_append, Option.or_assoc]
  · rw [h'.elsewhere c (by omega) (by rwa [h.current]), h.elsewhere c hc hne]

/-- A step in front that changes no name. -/
theorem Declares.after (h : Declares n' T L s' s'') (hs : Spares n T s s')
    (htable : s'.table = s.table) : Declares (n + n') T L s s'' := by
  refine ⟨hs.trans h.toSpares, ?_, ?_⟩
  · rw [← htable]
    exact h.here
  · rw [← htable]
    exact h.elsewhere

/-- A step behind that changes no name. -/
theorem Declares.before (h : Declares n T L s s') (hs : Spares 0 T s' s'')
    (htable : s''.table = s'.table) : Declares n T L s s'' := by
  refine ⟨h.toSpares.trans hs, ?_, ?_⟩
  · rw [htable]
    exact h.here
  · rw [htable]
    exact h.elsewhere

theorem lookup_singleton (name other : String) (m : Meaning) :
    [(name, m)].lookup other = if other = name then some m else none := by
  by_cases h : other = name
  · simp [h]
  · have hne : (other == name) = false := by simpa using h
    simp [h, List.lookup_cons, hne]

/-- One name. -/
theorem declares_declared {id : Nat} {name : String} {m : Meaning} {span : Span} {sc : Scope}
    (hlinked : s.table.Linked) (hpos : 0 < s.table.current)
    (hsc : s.table.scope? s.table.current = some sc) (hid : 0 < id ∧ id ≤ s.scopes.size)
    (hfresh : s.table.meaning? s.table.current name = none) (hT : T id) :
    Declares 0 T [(name, m)] s (s.declared id name m span) := by
  have hmark := spares_recordScope (s := s) hid.1 hT hid.2
  refine ⟨⟨rfl, by simp [State.declared, SymbolTable.declare,
    SymbolTable.bind], grows_declare _ _ _,
    fun c _ hne => (SymbolTable.scope?_declare hpos).trans (if_neg hne), hmark.rows, fun i hi => ?_,
    hmark.sizes⟩, fun n => ?_, fun c _ hne n => ?_⟩
  · refine (hmark.marks i hi).imp_right ?_
    rintro ⟨c, hc, hcase⟩
    exact ⟨c, hc, hcase.imp_right fun hnew => absurd hnew.2 (Nat.not_le.2 hnew.1)⟩
  · refine (hlinked.meaning?_declare hpos hsc span).trans ?_
    rw [lookup_singleton]
    by_cases hn : n = name <;> simp [hn, hfresh]
  · refine (hlinked.meaning?_declare hpos hsc span).trans ?_
    simp [hne]

/-- Names that can be declared together: they are distinct, and the current scope has none of
them. -/
def Free (t : SymbolTable) (L : List (String × Meaning)) : Prop :=
  (L.map Prod.fst).Nodup ∧ ∀ name ∈ L.map Prod.fst, t.meaning? t.current name = none

theorem free_nil (t : SymbolTable) : Free t [] := by simp [Free]

theorem free_singleton {t : SymbolTable} {name : String} {m : Meaning} :
    Free t [(name, m)] ↔ t.meaning? t.current name = none := by simp [Free]

theorem Free.of_append {t : SymbolTable} (h : Free t (L ++ L')) : Free t L := by
  simp only [Free, List.map_append, List.nodup_append, List.mem_append] at h ⊢
  exact ⟨h.1.1, fun name hname => h.2 name (.inl hname)⟩

theorem lookup_eq_none_iff {name : String} : L.lookup name = none ↔ name ∉ L.map Prod.fst := by
  rw [List.lookup_eq_none_iff, List.mem_map]
  refine ⟨fun hne ⟨p, hp, heq⟩ => ?_, fun hne p hp => ?_⟩
  · simpa [heq] using hne p hp
  · simpa using fun heq : name = p.1 => hne ⟨p, hp, heq.symm⟩

/-- Names are free behind others when they are free together with them. -/
theorem Declares.free_append (h : Declares n T L s s') :
    Free s.table (L ++ L') ↔ Free s.table L ∧ Free s'.table L' := by
  have hnew : ∀ name, s'.table.meaning? s'.table.current name = none ↔
      s.table.meaning? s.table.current name = none ∧ name ∉ L.map Prod.fst := by
    intro name
    rw [h.current, h.here, Option.or_eq_none_iff, lookup_eq_none_iff]
  simp only [Free, List.map_append, List.nodup_append, List.mem_append, hnew]
  grind

/-- A list of declarations asks for names that are free and distinct. Each item may ask for more,
and leaves something behind that the others keep. -/
theorem decides_declarations {X : Type} {step : X → BindM Unit}
    {entry : X → Option (String × Meaning)}
    {I : State → Prop} {C : X → Prop} {R : X → State → Prop} {xs : List X}
    (hstep : ∀ x ∈ xs, ∃ name m, entry x = some (name, m) ∧ ∀ s, I s →
      Decides (step x) s (s.table.meaning? s.table.current name = none ∧ C x) fun _ s' =>
        I s' ∧ Declares n T [(name, m)] s s' ∧ R x s')
    (hkeep : ∀ x ∈ xs, ∀ k s s', Spares (n * k) T s s' → R x s → R x s') (hI : I s) :
    Decides (xs.forM step) s (Free s.table (xs.filterMap entry) ∧ ∀ x ∈ xs, C x) fun _ s' =>
      I s' ∧ Declares (n * xs.length) T (xs.filterMap entry) s s' ∧ ∀ x ∈ xs, R x s' := by
  induction xs generalizing s with
  | nil =>
    refine ((Decides.pure ()).congr (by simp [free_nil])).mono ?_
    rintro _ _ - - ⟨-, rfl⟩
    exact ⟨hI, .nil T _, by simp⟩
  | cons x xs ih =>
    obtain ⟨name, m, hentry, hx⟩ := hstep x (by simp)
    rw [List.filterMap_cons_some hentry]
    have hall : Decides ((x :: xs).forM step) s
        ((s.table.meaning? s.table.current name = none ∧ C x) ∧
          Free s.table ([(name, m)] ++ xs.filterMap entry) ∧ ∀ y ∈ xs, C y)
        fun _ s' => I s' ∧
          Declares (n * (x :: xs).length) T ([(name, m)] ++ xs.filterMap entry) s s' ∧
            ∀ y ∈ x :: xs, R y s' := by
      refine (hx s hI).bind fun ⟨hfresh, _⟩ _ s' _ ⟨hI', hdecl, hR⟩ => ?_
      have hrest := ih (fun y hy => hstep y (by simp [hy])) (fun y hy => hkeep y (by simp [hy])) hI'
      refine (hrest.congr ?_).mono fun _ s'' _ _ ⟨hI'', hdecl', hR'⟩ => ⟨hI'', ?_, fun y hy => ?_⟩
      · rw [hdecl.free_append, free_singleton, and_iff_right hfresh]
      · have hboth := hdecl.append hdecl'
        rwa [List.length_cons, Nat.mul_succ, Nat.add_comm]
      · rcases List.mem_cons.1 hy with rfl | hy
        · exact hkeep y (by simp) xs.length s' s'' hdecl'.toSpares hR
        · exact hR' y hy
    refine hall.congr ?_
    have hfirst : Free s.table ([(name, m)] ++ xs.filterMap entry) →
        s.table.meaning? s.table.current name = none := fun h => h.2 name (by simp)
    rw [List.forall_mem_cons, List.cons_append, List.nil_append] at *
    tauto

/-- Declarations that ask for nothing but their names. -/
theorem decides_names {X : Type} {step : X → BindM Unit} {entry : X → Option (String × Meaning)}
    {I : State → Prop} {xs : List X}
    (hstep : ∀ x ∈ xs, ∃ name m, entry x = some (name, m) ∧ ∀ s, I s →
      Decides (step x) s (s.table.meaning? s.table.current name = none) fun _ s' =>
        I s' ∧ Declares 0 T [(name, m)] s s') (hI : I s) :
    Decides (xs.forM step) s (Free s.table (xs.filterMap entry)) fun _ s' =>
      I s' ∧ Declares 0 T (xs.filterMap entry) s s' := by
  have hall : Decides (xs.forM step) s (Free s.table (xs.filterMap entry) ∧ ∀ x ∈ xs, True)
      fun _ s' =>
      I s' ∧ Declares (0 * xs.length) T (xs.filterMap entry) s s' ∧ ∀ x ∈ xs, True := by
    refine decides_declarations (fun x hx => ?_) (fun _ _ _ _ _ _ _ => trivial) hI
    obtain ⟨name, m, hentry, hdecides⟩ := hstep x hx
    exact ⟨name, m, hentry, fun s hs => ((hdecides s hs).congr (by simp)).mono
      fun _ _ _ _ h => ⟨h.1, h.2, trivial⟩⟩
  rw [Nat.zero_mul] at hall
  exact (hall.congr (by simp)).mono fun _ _ _ _ h => ⟨h.1, h.2.1⟩

/-! ### Variables of a member -/

/-- The pass inside of a member. -/
structure Enclosed (a : Arena) (u : UnitNode) (s : State) : Prop
    extends Inside a u (fun _ => True) s where
  rows : s.scopes.size = a.size

theorem Enclosed.recordScope (h : Enclosed a u s) (id : Nat) :
    Enclosed a u { s with scopes := SemanticInfo.setRow s.scopes id s.table.current } :=
  ⟨h.toInside.recordScope id, by simp [h.rows]⟩

theorem decides_declareVariable_inside {id : Nat} {b : Binder} {cls : VariableClass}
    (hk : a.kind id = .ok (.declaration b)) (hcls : cls ≠ .global) (hid : T id)
    (hin : Enclosed a u s) :
    Decides (declareVariable a id cls) s (s.table.meaning? s.table.current b.name = none)
      fun _ s' =>
      Enclosed a u s' ∧ Declares 0 T [(b.name, .var b.ty b.isReference cls id)] s s' := by
  obtain ⟨sc, hsc, -⟩ := hin.scope.scope
  refine (decides_declareVariable hk hin.table.linked hsc).mono ?_
  rintro _ _ hfresh hrun ⟨span, rfl⟩
  have hdecl : Declares 0 T [(b.name, .var b.ty b.isReference cls id)] s
      (s.declared id b.name (.var b.ty b.isReference cls id) span) :=
    declares_declared hin.table.linked hin.scope.pos hsc
      (by rw [hin.rows]; exact Arena.bounds_of_kind hk) hfresh hid
  exact ⟨⟨(declareVariable_inside hin.toInside hcls trivial hrun).1, hdecl.sizes.1.trans hin.rows⟩,
    hdecl⟩

/-- The fields of a record. -/
theorem decides_declareFields {fields : List NodeId} (hfields : ∀ d ∈ fields, a.IsDeclaration d ∧
      T d) (hin : Enclosed a u s) :
    Decides (fields.forM fun d => declareVariable a d .recordField) s
      (Free s.table (fields.filterMap (a.declaredAs? .recordField))) fun _ s' =>
      Enclosed a u s' ∧ Declares 0 T (fields.filterMap (a.declaredAs? .recordField)) s s' := by
  refine decides_names (fun d hd => ?_) hin
  obtain ⟨⟨b, hb⟩, hT⟩ := hfields d hd
  exact ⟨b.name, _, Arena.declaredAs?_of_kind hb _, fun s hs =>
    decides_declareVariable_inside hb (by simp) hT hs⟩

theorem declareParameters_eq (params : List NodeId) (index : Nat) :
    declareParameters a index params =
      (params.zipIdx index).forM fun p => declareVariable a p.1 (.parameter p.2) := by
  induction params generalizing index with
  | nil => rfl
  | cons d rest ih =>
    rw [declareParameters, List.zipIdx_cons, ih]
    rfl

/-- The parameters of a function. -/
theorem decides_declareParameters {params : List NodeId}
    (hparams : ∀ d ∈ params, a.IsDeclaration d ∧ T d) (hin : Enclosed a u s) :
    Decides (declareParameters a 0 params) s
      (Free s.table (a.parametersAs params)) fun _ s' =>
      Enclosed a u s' ∧ Declares 0 T (a.parametersAs params) s s' := by
  rw [declareParameters_eq, Arena.parametersAs]
  refine decides_names (fun p hp => ?_) hin
  obtain ⟨⟨b, hb⟩, hT⟩ := hparams p.1 (List.fst_mem_of_mem_zipIdx hp)
  exact ⟨b.name, _, Arena.declaredAs?_of_kind hb _, fun s hs =>
    decides_declareVariable_inside hb (by simp) hT hs⟩

/-- The statement of a local. -/
theorem decides_bindLocal {depth l d : Nat} {b : Binder} (hl : a.kind l = .ok (.declare d))
    (hd : a.kind d = .ok (.declaration b)) (hT : T l ∧ T d) (hin : Enclosed a u s) :
    Decides (bindNode a (depth + 1) l) s (s.table.meaning? s.table.current b.name = none)
      fun _ s' =>
      Enclosed a u s' ∧ Declares 0 T [(b.name, .var b.ty b.isReference .localVariable d)] s s' ∧
        SemanticInfo.row s'.scopes l = some s'.table.current := by
  obtain ⟨span, hnode⟩ := Arena.kind_eq_ok_iff.1 hl
  obtain ⟨hpos, hle⟩ := Arena.bounds_of_kind hl
  have hmark := spares_recordScope (s := s) hpos hT.1 (by rw [hin.rows]; exact hle)
  unfold bindNode
  refine .bind_total (succeeds_lift_ok hnode) (.bind_total (succeeds_recordScope l) ?_)
  refine (decides_declareVariable_inside hd (by simp) hT.2 (hin.recordScope l)).mono ?_
  rintro _ s' - - ⟨hin', hdecl⟩
  refine ⟨hin', by simpa using hdecl.after hmark rfl, hdecl.marked hpos ?_⟩
  exact SemanticInfo.row_setRow_self hpos (by rw [hin.rows]; exact hle) _

/-- The locals of a function. -/
theorem decides_bindLocals {depth : Nat} {locals : List NodeId}
    (hlocals : ∀ l ∈ locals, ∃ d, a.kind l = .ok (.declare d) ∧ a.IsDeclaration d ∧ T l ∧ T d)
    (hin : Enclosed a u s) :
    Decides (locals.forM (bindNode a (depth + 1))) s
      (Free s.table (a.localsAs locals)) fun _ s' =>
      Enclosed a u s' ∧ Declares 0 T (a.localsAs locals) s s' ∧
        ∀ l ∈ locals, SemanticInfo.row s'.scopes l = some s'.table.current := by
  rw [Arena.localsAs, Arena.localsIn, List.filterMap_filterMap]
  have hall : Decides (locals.forM (bindNode a (depth + 1))) s
      (Free s.table (locals.filterMap fun l =>
        ((a.node? l).bind (·.kind.declared?)).bind (a.declaredAs? .localVariable)) ∧
          ∀ l ∈ locals, True)
      fun _ s' => Enclosed a u s' ∧ Declares (0 * locals.length) T (locals.filterMap fun l =>
        ((a.node? l).bind (·.kind.declared?)).bind (a.declaredAs? .localVariable)) s s' ∧
        ∀ l ∈ locals, SemanticInfo.row s'.scopes l = some s'.table.current := by
    refine decides_declarations (fun l hl => ?_) (fun l hl k s s' hs hrow => ?_) hin
    · obtain ⟨d, hk, ⟨b, hb⟩, hT⟩ := hlocals l hl
      obtain ⟨span, hnode⟩ := Arena.kind_eq_ok_iff.1 hk
      refine ⟨b.name, _, ?_, fun s hs => (decides_bindLocal hk hb hT hs).congr (by simp)⟩
      rw [Arena.node_eq_ok_iff.1 hnode]
      exact Arena.declaredAs?_of_kind hb _
    · obtain ⟨d, hk, -⟩ := hlocals l hl
      rw [Nat.zero_mul] at hs
      exact hs.marked (Arena.bounds_of_kind hk).1 hrow
  rw [Nat.zero_mul] at hall
  exact hall.congr (by simp)

/-! ### Statements -/

/-- The pass resolves the variables among the nodes `V`, which fill the numbers above `lo` up to
`hi`, and notes the current scope for all of them. The table stays. -/
structure Resolved (a : Arena) (lo hi : Nat) (V : Nat → Prop) (s s' : State) : Prop where
  table : s'.table = s.table
  spares : Spares 0 (fun i => lo < i ∧ i ≤ hi) s s'
  resolves : ∀ v name, V v → a.kind v = .ok (.var name) → ∃ e x,
    SemanticInfo.row s'.resolved v = some e ∧ s.table.entry e = .ok x ∧ x.name = name ∧
      s.table.seen? name = some x.meaning
  marked : ∀ v, V v → SemanticInfo.row s'.scopes v = some s.table.current

/-- All variables among some nodes are seen as variables. -/
def Uses (a : Arena) (V : Nat → Prop) (t : SymbolTable) : Prop :=
  ∀ v name, V v → a.kind v = .ok (.var name) → t.Sees name

theorem Enclosed.congr (h : Enclosed a u s) (htable : s'.table = s.table)
    (hsizes : s'.scopes.size = s.scopes.size ∧ s'.resolved.size = s.resolved.size) :
    Enclosed a u s' :=
  ⟨⟨htable ▸ h.table, htable ▸ h.scope, hsizes.2.trans h.size⟩, hsizes.1.trans h.rows⟩

theorem uses_or {V V' : Nat → Prop} {t : SymbolTable} :
    Uses a (fun v => V v ∨ V' v) t ↔ Uses a V t ∧ Uses a V' t := by
  simp only [Uses, or_imp, forall_and]

/-- Nodes that are resolved stay so, as long as none of them is among the ones that are resolved
later. -/
theorem Resolved.trans {V V' : Nat → Prop} {l r lo hi lo' hi' : Nat} (h : Resolved a lo hi V s s')
    (h' : Resolved a lo' hi' V' s' s'') (hin : l ≤ lo ∧ hi ≤ r) (hin' : l ≤ lo' ∧ hi' ≤ r)
    (hV : ∀ v, V v → 0 < v ∧ ¬(lo' < v ∧ v ≤ hi')) :
    Resolved a l r (fun v => V v ∨ V' v) s s'' := by
  refine ⟨h'.table.trans h.table, ?_, ?_, ?_⟩
  · exact (h.spares.mono fun i hi => by omega).trans (h'.spares.mono fun i hi => by omega)
  · rintro v name (hv | hv) hk
    · obtain ⟨e, x, hrow, hx⟩ := h.resolves v name hv hk
      obtain ⟨hpos, hout⟩ := hV v hv
      exact ⟨e, x, (h'.spares.rows v hpos hout).2.trans hrow, hx⟩
    · simpa only [h.table] using h'.resolves v name hv hk
  · rintro v (hv | hv)
    · obtain ⟨hpos, hout⟩ := hV v hv
      rw [(h'.spares.rows v hpos hout).1]
      exact h.marked v hv
    · simpa only [h.table] using h'.marked v hv

/-- Subtrees behind each other are resolved one after the other. -/
theorem decides_bindNodes {bind : Nat → BindM Unit} {lo id : Nat} {parts : List (Nat × Nat)}
    (htiles : Arena.Tiles lo parts id) (htrees : ∀ p ∈ parts, a.Tree p.2 p.1)
    (hbind : ∀ p ∈ parts, ∀ s, Enclosed a u s → Decides (bind p.1) s (Uses a (a.Below p.1) s.table)
      fun _ s' => Resolved a p.2 p.1 (a.Below p.1) s s')
    (hin : Enclosed a u s) :
    Decides ((parts.map Prod.fst).forM bind) s
      (Uses a (fun v => ∃ p ∈ parts, a.Below p.1 v) s.table) fun _ s' =>
      Resolved a lo (id - 1) (fun v => ∃ p ∈ parts, a.Below p.1 v) s s' := by
  induction parts generalizing lo s with
  | nil =>
    refine ((Decides.pure ()).congr (by simp [Uses])).mono ?_
    rintro _ _ - - ⟨-, rfl⟩
    exact ⟨rfl, .refl _ _, by simp, by simp⟩
  | cons q rest ih =>
    obtain ⟨c, start⟩ := q
    obtain ⟨rfl, htiles⟩ := htiles
    have hc : start < c := (htrees (c, start) (by simp)).lt
    have hbounds := htiles.bounds fun p hp => (htrees p (by simp [hp])).lt
    have hnodes : (fun v => ∃ p ∈ (c, start) :: rest, a.Below p.1 v) =
        fun v => a.Below c v ∨ ∃ p ∈ rest, a.Below p.1 v := by
      funext v
      simp
    rw [hnodes, uses_or]
    refine (hbind (c, start) (by simp) s hin).bind fun _ _ s' _ hone => ?_
    have hrest := ih htiles (fun p hp => htrees p (by simp [hp])) (fun p hp =>
      hbind p (by simp [hp]))
      (hin.congr hone.table hone.spares.sizes)
    rw [hone.table] at hrest
    refine hrest.mono fun _ s'' _ _ hmany =>
      hone.trans hmany ⟨Nat.le_refl _, by omega⟩ ⟨by omega, Nat.le_refl _⟩ fun v hv => ?_
    obtain ⟨_, hsub, _, hle⟩ := (htrees (c, start) (by simp)).sub hv
    exact ⟨Nat.zero_lt_of_lt hsub.lt, by omega⟩

/-- Statements and expressions. -/
def IsCode (k : NodeKind) : Prop := k.role = .expression ∨ k.role = .statement

/-- The parts of code that declares nothing are code. -/
theorem isCode_child {lo id c : Nat} {k : NodeKind} (htree : a.Tree lo id) (hk : a.kind id = .ok k)
    (hcode : IsCode k) (hno : ∀ d, k ≠ .declare d) (hc : c ∈ k.children) :
    ∃ k', a.kind c = .ok k' ∧ IsCode k' := by
  obtain ⟨r, hr, k', hk', rfl⟩ := Outcome.exists_of_forall₂_right (htree.roles hk) hc
  refine ⟨k', hk', ?_⟩
  unfold IsCode at hcode ⊢
  cases k <;> simp_all [NodeKind.role, NodeKind.partRoles]
  grind

/-- A node is its root, and what lies below its parts. -/
theorem below_eq_of_parts {id : Nat} {k : NodeKind} {parts : List (Nat × Nat)}
    (hk : a.kind id = .ok k) (hparts : parts.map Prod.fst = k.children) :
    a.Below id = fun v => v = id ∨ ∃ p ∈ parts, a.Below p.1 v := by
  funext v
  refine propext ⟨?_, ?_⟩
  · rintro (_ | ⟨hk', hc, hv⟩)
    · exact .inl rfl
    · obtain rfl := Except.ok.inj (hk.symm.trans hk')
      obtain ⟨p, hp, rfl⟩ := List.mem_map.1 (hparts ▸ hc)
      exact .inr ⟨p, hp, hv⟩
  · rintro (rfl | ⟨p, hp, hv⟩)
    · exact .self v
    · exact .child hk (hparts ▸ List.mem_map_of_mem hp) hv

/-- Code that declares nothing asks for variables. -/
theorem decides_bindNode {depth lo id : Nat} (htree : a.Tree lo id) (hdepth : id - lo ≤ depth)
    (hcode : ∃ k, a.kind id = .ok k ∧ IsCode k)
    (hno : ∀ x d, a.Below id x → a.kind x ≠ .ok (.declare d)) (hin : Enclosed a u s) :
    Decides (bindNode a depth id) s (Uses a (a.Below id) s.table) fun _ s' =>
      Resolved a lo id (a.Below id) s s' := by
  induction depth generalizing lo id s with
  | zero =>
    have hlt := htree.lt
    omega
  | succ depth ih =>
    obtain ⟨k, hk, hcode⟩ := hcode
    obtain ⟨span, hnode⟩ := Arena.kind_eq_ok_iff.1 hk
    obtain ⟨hpos, hle⟩ := Arena.bounds_of_kind hk
    have hlt := htree.lt
    have hmark := spares_recordScope (s := s) (T := fun i => lo < i ∧ i ≤ id) hpos
      ⟨hlt, Nat.le_refl _⟩
      (by rw [hin.rows]; exact hle)
    have hrow : SemanticInfo.row (SemanticInfo.setRow s.scopes id s.table.current) id =
        some s.table.current := SemanticInfo.row_setRow_self hpos (by rw [hin.rows]; exact hle) _
    have hin' := hin.recordScope id
    have hchildren : (∀ name, k ≠ .var name) → Decides (k.children.forM (bindNode a depth))
        { s with scopes := SemanticInfo.setRow s.scopes id s.table.current }
        (Uses a (a.Below id) s.table) fun _ s' => Resolved a lo id (a.Below id) s s' := by
      intro hvar
      have hcodes := fun c => isCode_child (c := c) htree hk hcode fun d hd => hno id d (.self id)
        (hd ▸ hk)
      obtain ⟨parts, hk', -, hparts, htiles, -, htrees⟩ := htree
      obtain rfl := Except.ok.inj (hk.symm.trans hk')
      have hmem : ∀ p ∈ parts, p.1 ∈ k.children := fun p hp => hparts ▸ List.mem_map_of_mem hp
      have hbounds := (htiles.bounds fun p hp => (htrees p hp).lt).2
      have hnot : ∀ v name, v = id → a.kind v ≠ .ok (.var name) := by
        rintro v name rfl hkv
        exact hvar name (Except.ok.inj (hk.symm.trans hkv))
      have hroot : Resolved a (id - 1) id (fun v => v = id) s
          { s with scopes := SemanticInfo.setRow s.scopes id s.table.current } :=
        ⟨rfl, spares_recordScope hpos ⟨by omega, Nat.le_refl _⟩ (by rw [hin.rows]; exact hle),
          fun v name hv hkv => absurd hkv (hnot v name hv), fun v hv => hv ▸ hrow⟩
      have hall := decides_bindNodes htiles htrees (fun p hp s hs =>
        ih (htrees p hp) (by have := hbounds p hp; omega) (hcodes p.1 (hmem p hp))
          (fun x d hx => hno x d (.child hk (hmem p hp) hx)) hs) hin'
      rw [← hparts, below_eq_of_parts hk hparts, uses_or]
      refine (hall.congr ⟨fun h => ⟨fun v name hv hkv => absurd hkv (hnot v name hv), h⟩,
        fun h => h.2⟩).mono fun _ s' _ _ hmany =>
          hroot.trans hmany ⟨by omega, Nat.le_refl _⟩ ⟨Nat.le_refl _, by omega⟩ fun v hv => ?_
      exact ⟨hv ▸ hpos, by omega⟩
    unfold bindNode
    refine .bind_total (succeeds_lift_ok hnode) (.bind_total (succeeds_recordScope id) ?_)
    cases k with
    | var name =>
      refine ((decides_resolveVariable hin'.toInside).congr ⟨fun h v n hv hkv => ?_,
        fun h => ?_⟩).mono ?_
      · obtain rfl := hv.eq_of_leaf hk rfl
        cases hk.symm.trans hkv
        exact h
      · exact h id name (.self id) hk
      · rintro _ _ - - ⟨e, x, rfl, hx, hname, hseen⟩
        refine ⟨rfl, hmark.trans (spares_setResolved hpos ⟨hlt, Nat.le_refl _⟩),
          fun v n hv hkv => ?_, fun v hv => ?_⟩
        · obtain rfl := hv.eq_of_leaf hk rfl
          cases hk.symm.trans hkv
          exact ⟨e, x, SemanticInfo.row_setRow_self hpos (by rw [hin.size]; exact hle) e, hx,
            hname, hseen⟩
        · obtain rfl := hv.eq_of_leaf hk rfl
          exact hrow
    | declare d => exact absurd hk (hno id d (.self id))
    | declaration | function | record | unit | dummy => simp [IsCode, NodeKind.role] at hcode
    | _ => exact hchildren (by simp)

end Binding

end MiniJ
