import MiniJ.Proofs.Lowering.Blocks
import MiniJ.Proofs.Lowering.Naming
import MiniJ.Proofs.Lowering.Visits

/-!
# Symbols of an assembly file

Whatever the file of an accepted program refers to is defined in it, and nothing is defined twice:
the code consists of one block for each function, symbols differ, calls go to the functions that the
type checker chose, and jumps stay in their blocks.

## Main definitions

* `Block` — the code of a function in a file.
* `Block.Closed` — a block refers only to what is there.

## Main statements

* `Lowering.exists_blocks` — adding functions adds blocks.
* `Accepted.symbols_closed` — files of accepted programs.
-/
namespace MiniJ

open Gen Outcome

/-- The code of a function in an assembly file. -/
structure Block where
  /-- The node of the function. -/
  definition : NodeId
  label : String
  /-- The lines behind the label. -/
  body : List Line

def Block.lines (b : Block) : List Line := .label b.label :: b.body

/-- The labels that code defines, in order. -/
def definedLabels (code : List Line) : List String := code.filterMap Line.label?

namespace Assembly

/-- Symbols of the data sections. -/
def dataSymbols (out : Assembly) : List String :=
  out.reserved.map Prod.fst ++ (List.range out.texts.length).map textLabel

end Assembly

/-- A call by its operand. The run of code generation for function `f` from state `s₀` emits it
behind the code `front`, for a call node of `f` or to end the program. For a node, the operand is
what the type checker chose for this very node: the label of the block of the function, or the name
of a builtin. -/
inductive ChosenCall (out : Assembly) (blocks : List Block) (cx : Context) (f : FunctionNode)
    (s₀ : State) (front : List Line) : String → Prop
  | function {id : NodeId} {callee : Lowering.Callee} {n : Nat} {b : Block}
      (point : Lowering.CallPoint cx f s₀ id callee n front) (block : b ∈ blocks)
      (target : cx.info.callTarget id = some (.function b.definition)) :
      ChosenCall out blocks cx f s₀ front b.label
  | builtin {id : NodeId} {callee : Lowering.Callee} {n : Nat} {name : String}
      (point : Lowering.CallPoint cx f s₀ id callee n front) (external : name ∈ out.externals)
      (target : cx.info.callTarget id = some (.builtin name)) :
      ChosenCall out blocks cx f s₀ front name
  | exit {n : Nat} (point : Lowering.ExitPoint cx f s₀ n front)
      (external : "_exit" ∈ out.externals) : ChosenCall out blocks cx f s₀ front "_exit"

/-- The block of function `f`, which code generation emits from state `s₀` on, refers only to what
is there. -/
structure Block.Closed (out : Assembly) (blocks : List Block) (cx : Context) (f : FunctionNode)
    (s₀ : State) (b : Block) : Prop where
  function : cx.arena.kind b.definition = .ok (.function f)
  frame : Frame.layout cx.arena cx.info cx.table f = .ok cx.frame
  entry : cx.isEntry = true ↔ b.label = entryLabel
  runs : ∃ t, Emits (Lowering.functionBody b.label f) cx s₀ () b.lines t
  /-- The labels inside are local ones, each defined once. -/
  locals : ∀ name ∈ definedLabels b.body, ∃ k, name = labelName k
  distinct : (definedLabels b.body).Nodup
  jumps : ∀ line ∈ b.body, line.isJump = true →
    ∃ name ∈ definedLabels b.body, ∃ mnemonic, line = .instruction mnemonic [.label name]
  symbols : ∀ line ∈ b.body, ∀ name ∈ line.symbols, name ∈ out.dataSymbols
  /-- Calls stand behind the set-up of the frame and go to what was chosen. -/
  calls : ∀ front operands back, b.body = front ++ .instruction .call operands :: back →
    ∃ before name, front = Lowering.frameCode cx ++ before ∧ operands = [.label name] ∧
      ChosenCall out blocks cx f s₀ before name
  leaves : ∃ line, b.body.getLast? = some line ∧ line.Leaves

/-! ### What acceptance says about names -/

/-- Names in an accepted program are words. -/
theorem Accepted.isName {a : Arena} {table : SymbolTable} {info : SemanticInfo}
    (h : Accepted a table info) {id : NodeId} {k : NodeKind} (hk : a.kind id = .ok k) :
    k.From ⟨IsName, fun _ => True, fun _ _ => trivial⟩ := by
  obtain ⟨source, bytes, _, _, hparse, -, -⟩ := h
  have hsettles := Arena.settles_ofBytes source bytes
  rw [hparse] at hsettles
  rcases hsettles with rfl | hfrom
  · refine (Arena.from_ofProgram ?_).kind hk
    exact ⟨trivial, by simp⟩
  · have hkind := hfrom.kind hk
    cases k with
    | declaration b => exact ⟨hkind.1, hkind.2⟩
    | function f => exact ⟨hkind.1, hkind.2⟩
    | _ => exact hkind

theorem Accepted.isWellScoped {a : Arena} {table : SymbolTable} {info : SemanticInfo} {u : UnitNode}
    (h : Accepted a table info) (hu : a.unit? = some u) : a.WellScoped u := by
  obtain ⟨source, bytes, table₀, info₀, hparse, hbind, -⟩ := h
  obtain ⟨u', hu', hcomplete⟩ := Arena.exists_complete_ofBytes hparse
  cases hu.symm.trans hu'
  rw [Arena.bind_eq, Prod.mk.injEq] at hbind
  exact ((Binding.decides_bindUnit hu hcomplete.spread).of_succeeds (Prod.ext hbind.1 rfl)).1

/-- No two functions of a program are the same node. -/
theorem Arena.Layout.nodup_functions {a : Arena} {u : UnitNode} {lo : Nat} (h : a.Layout lo u) :
    u.functions.Nodup := by
  obtain ⟨parts, hparts, hascends, hall⟩ := h.functions
  rw [← hparts]
  have hbounds : ∀ {lo : Nat} {parts : List (Nat × Nat)}, Ascends lo parts →
      (∀ p ∈ parts, p.2 < p.1) → (parts.map Prod.fst).Nodup ∧ ∀ p ∈ parts, lo < p.1 := by
    intro lo parts hascends hlt
    induction parts generalizing lo with
    | nil => exact ⟨.nil, by simp⟩
    | cons p rest ih =>
      obtain ⟨hstart, hrest⟩ := hascends
      obtain ⟨hnodup, habove⟩ := ih hrest fun q hq => hlt q (by simp [hq])
      have hfirst := hlt p (by simp)
      refine ⟨List.nodup_cons.2 ⟨fun hmem => ?_, hnodup⟩,
        List.forall_mem_cons.2 ⟨by omega, fun q hq => ?_⟩⟩
      · obtain ⟨q, hq, heq⟩ := List.mem_map.1 hmem
        have := habove q hq
        omega
      · have := habove q hq
        omega
  exact (hbounds hascends fun p hp => (hall p hp).2.lt).1

/-- Elements that cannot both be `c` are `c` at most once. -/
theorem count_le_one_of_pairwise {c : String} {xs : List String}
    (h : xs.Pairwise fun x y => x = c → y ≠ c) : xs.count c ≤ 1 := by
  induction h with
  | nil => simp
  | @cons x xs hx _ ih =>
    by_cases heq : x = c
    · rw [heq, List.count_cons_self, List.count_eq_zero.2 fun hmem => hx c hmem heq rfl]
    · rwa [List.count_cons_of_ne heq]

/-- Lists that are related one by one have the same images. -/
theorem map_eq_map_of_forall₂ {α β γ : Type} {R : α → β → Prop} {f : α → γ} {g : β → γ}
    {xs : List α} {ys : List β} (h : List.Forall₂ R xs ys) (hR : ∀ x y, R x y → f x = g y) :
    xs.map f = ys.map g := by
  induction h with
  | nil => rfl
  | cons hxy _ ih => rw [List.map_cons, List.map_cons, hR _ _ hxy, ih]

namespace Arena

variable {a : Arena} {u : UnitNode} {functions : List (NodeId × FunctionNode)}

theorem overloads_eq (hkeys : functions.map Prod.fst = u.functions)
    (hkinds : ∀ p ∈ functions, a.kind p.1 = .ok (.function p.2)) :
    a.overloads u.functions = functions.map fun p => (p.2.name, Binding.overloadOf a p.1 p.2) := by
  rw [Arena.overloads, ← hkeys, List.filterMap_map]
  refine (List.filterMap_congr fun p hp => ?_).trans (congrFun List.filterMap_eq_map' functions)
  obtain ⟨span, hnode⟩ := Arena.kind_eq_ok_iff.1 (hkinds p hp)
  simp [Arena.node_eq_ok_iff.1 hnode, NodeKind.function?]

/-- A program has one entry function at most. -/
theorem WellScoped.count_main (h : a.WellScoped u) (hkeys : functions.map Prod.fst = u.functions)
    (hkinds : ∀ p ∈ functions, a.kind p.1 = .ok (.function p.2)) :
    (functions.map (·.2.name)).count "main" ≤ 1 := by
  have hpairs := (List.pairwise_append.1 h.overloads).2.1
  rw [overloads_eq hkeys hkinds, List.pairwise_map] at hpairs
  refine count_le_one_of_pairwise (List.pairwise_map.2 (hpairs.imp_of_mem ?_))
  intro p q hp hq hdiffer hpmain hqmain
  have hrules := fun r hr => (h.functions r.1 (hkeys ▸ List.mem_map.2 ⟨r, hr, rfl⟩) r.2
    (hkinds r hr)).main
  obtain ⟨hpty, hpparams⟩ := hrules p hp hpmain
  obtain ⟨hqty, hqparams⟩ := hrules q hq hqmain
  refine hdiffer (hpmain.trans hqmain.symm) ⟨hpty.trans hqty.symm, ?_⟩
  simp [Binding.overloadOf, hpparams, hqparams]

/-- A global has a name of its own. -/
theorem WellScoped.global_ne (h : a.WellScoped u) (hkeys : functions.map Prod.fst = u.functions)
    (hkinds : ∀ p ∈ functions, a.kind p.1 = .ok (.function p.2)) {g : String}
    (hg : g ∈ a.names u.globals) {p : NodeId × FunctionNode} (hp : p ∈ functions) :
    g ≠ p.2.name := by
  have hoverload : (p.2.name, Binding.overloadOf a p.1 p.2) ∈ a.overloads u.functions := by
    rw [overloads_eq hkeys hkinds]
    exact List.mem_map_of_mem hp
  exact (h.unclaimed g (List.mem_append_left _ hg) _ (List.mem_append_right _ hoverload)).symm

/-- A name that is declared is the name of a declaration. -/
theorem exists_of_mem_names {ids : List NodeId} {name : String} (h : name ∈ a.names ids) :
    ∃ d ∈ ids, ∃ b, a.kind d = .ok (.declaration b) ∧ b.name = name := by
  obtain ⟨b, hb, rfl⟩ := List.mem_map.1 h
  obtain ⟨d, hd, hbinder⟩ := List.mem_filterMap.1 hb
  obtain ⟨⟨k, span⟩, hnode, hk⟩ := Option.bind_eq_some_iff.1 hbinder
  cases k <;> cases hk
  exact ⟨d, hd, _, kind_eq_ok_iff.2 ⟨span, node_eq_ok_iff.2 hnode⟩, rfl⟩

end Arena

namespace Lowering

variable {a : Arena} {table : SymbolTable} {info : SemanticInfo} {u : UnitNode}
  {out out' : Assembly} {functions : List (NodeId × FunctionNode)}

/-! ### Storage of globals -/

/-- Globals are reserved in order. -/
theorem foldlM_global {ids : List NodeId} (h : ids.foldlM (global a table) out = .ok out') :
    out' = { out with reserved := out'.reserved } ∧
      out'.reserved.map Prod.fst = out.reserved.map Prod.fst ++ (a.names ids).map userSymbol := by
  induction ids generalizing out with
  | nil =>
    cases pure_eq_ok.1 h
    exact ⟨rfl, by simp [Arena.names, Arena.bindersOf]⟩
  | cons id ids ih =>
    obtain ⟨mid, hid, hrest⟩ := foldlM_cons_eq_ok.1 h
    obtain ⟨hsame, hreserved⟩ := ih hrest
    obtain ⟨n, hn, hbinder⟩ := bind_eq_ok.1 hid
    have hnode := Arena.node_eq_ok_iff.1 (lift_eq_ok.1 hn)
    have hnames : a.names (id :: ids) = (n.kind.binder?.map (·.name)).toList ++ a.names ids := by
      cases hk : n.kind.binder? <;> simp [Arena.names, Arena.bindersOf, hnode, hk]
    rw [hnames, hsame, hreserved]
    cases hk : n.kind.binder? with
    | none =>
      rw [hk] at hbinder
      cases pure_eq_ok.1 hbinder
      exact ⟨rfl, by simp⟩
    | some b =>
      rw [hk] at hbinder
      obtain ⟨size, -, hsized⟩ := bind_eq_ok.1 hbinder
      cases size with
      | none => exact absurd hsized throw_ne_ok
      | some size =>
        cases pure_eq_ok.1 hsized
        exact ⟨rfl, by simp [Assembly.reserve]⟩

/-! ### Blocks of functions -/

/-- What the block of a function refers to, with `n` text constants. Its code is emitted from state
`s₀` on. -/
structure HoldsBlock (a : Arena) (info : SemanticInfo) (table : SymbolTable) (u : UnitNode)
    (functions : List (NodeId × FunctionNode)) (n : Nat) (p : NodeId × FunctionNode) (b : Block)
    (cx : Context) (s₀ : State) : Prop where
  context : ∃ frame, Frame.layout a info table p.2 = .ok frame ∧
    cx = ⟨a, info, table, labels functions, frame, b.label = entryLabel⟩
  definition : b.definition = p.1
  label : b.label = ((labels functions).lookup p.1).getD ""
  runs : ∃ t, Emits (functionBody b.label p.2) cx s₀ () b.lines t
  lays : ∃ ks js, Lays cx u n b.body ks js ∧ ks.Nodup ∧ js ⊆ ks
  calls : ∃ rest, b.body = frameCode cx ++ rest ∧ Visited cx p.2 s₀ [] rest
  leaves : ∃ line, b.body.getLast? = some line ∧ line.Leaves

theorem HoldsBlock.mono {n n' : Nat} {p : NodeId × FunctionNode} {b : Block} {cx : Context}
    {s₀ : State} (h : HoldsBlock a info table u functions n p b cx s₀) (hle : n ≤ n') :
    HoldsBlock a info table u functions n' p b cx s₀ := by
  obtain ⟨ks, js, hlays, hrest⟩ := h.lays
  exact ⟨h.context, h.definition, h.label, h.runs, ⟨ks, js, hlays.mono hle, hrest⟩, h.calls,
    h.leaves⟩

/-- Adding a function adds its block. -/
theorem addFunction_block {p : NodeId × FunctionNode} (hprogram : CheckedProgram a u table info)
    (hp : p.1 ∈ u.functions) (hf : a.kind p.1 = .ok (.function p.2))
    (h : addFunction a info table (labels functions) out p = .ok out') :
    ∃ b cx texts, HoldsBlock a info table u functions out'.texts.length p b cx { texts := texts } ∧
      out' = { out with code := out.code ++ b.lines, texts := out'.texts } ∧
      out.texts.length ≤ out'.texts.length := by
  obtain ⟨⟨code, texts⟩, hfunction, hdone⟩ := bind_eq_ok.1 h
  cases pure_eq_ok.1 hdone
  obtain ⟨frame, hframe, hbody⟩ := bind_eq_ok.1 hfunction
  obtain ⟨output, hemits, houtput⟩ := bind_eq_ok.1 hbody
  cases pure_eq_ok.1 houtput
  generalize hlabel : ((labels functions).lookup p.1).getD "" = label at hemits
  generalize hcx : (⟨a, info, table, labels functions, frame, label = entryLabel⟩ : Context) =
    cx at hemits
  have hlowers : cx.Lowers u p.2 := by
    rw [← hcx]
    exact ⟨hprogram, ⟨p.1, hp, hf⟩, hframe⟩
  obtain ⟨body, ks, js, hcode, hlays, hfresh, hsub, htexts⟩ := tidy_functionBody hlowers hemits
  obtain ⟨rest, hrest, hvisited⟩ := visited_functionBody hlowers hemits
  obtain ⟨line, hline, hleaves⟩ := (functionShape hemits).getLast?
  refine ⟨⟨p.1, label, body⟩, cx, _, ⟨⟨frame, hframe, hcx.symm⟩, rfl, hlabel.symm,
    ⟨output.state, by rwa [Block.lines, ← hcode]⟩, ⟨ks, js, hlays, hfresh.nodup, hsub⟩,
    ⟨rest, (List.cons.inj (hcode.symm.trans hrest)).2, hvisited⟩, line, ?_, hleaves⟩,
    by simp [hcode, Block.lines], htexts.le⟩
  -- the last line is not the label, which does not leave
  rw [hcode] at hline
  cases body with
  | nil =>
    cases hline
    rcases hleaves with hleaves | hleaves <;> cases hleaves
  | cons first rest => simpa using hline

/-- Adding functions adds their blocks, in order. -/
theorem exists_blocks {ps : List (NodeId × FunctionNode)} (hprogram : CheckedProgram a u table info)
    (hps : ∀ p ∈ ps, p.1 ∈ u.functions ∧ a.kind p.1 = .ok (.function p.2))
    (h : ps.foldlM (addFunction a info table (labels functions)) out = .ok out') :
    ∃ blocks : List Block, List.Forall₂ (fun p b => ∃ cx texts,
        HoldsBlock a info table u functions out'.texts.length p b cx { texts := texts }) ps blocks ∧
      out' = { out with code := out.code ++ blocks.flatMap Block.lines, texts := out'.texts } ∧
      out.texts.length ≤ out'.texts.length := by
  induction ps generalizing out with
  | nil =>
    cases pure_eq_ok.1 h
    exact ⟨[], .nil, by simp, Nat.le_refl _⟩
  | cons p ps ih =>
    obtain ⟨mid, hp, hrest⟩ := foldlM_cons_eq_ok.1 h
    obtain ⟨hmem, hf⟩ := hps p (by simp)
    obtain ⟨b, cx, earlier, hb, hmid, htexts⟩ := addFunction_block hprogram hmem hf hp
    obtain ⟨blocks, hblocks, hout', htexts'⟩ := ih (fun q hq => hps q (by simp [hq])) hrest
    refine ⟨b :: blocks, .cons ⟨cx, earlier, hb.mono htexts'⟩ hblocks, ?_, htexts.trans htexts'⟩
    rw [hout', hmid]
    simp

/-! ### Files -/

/-- Text constants, globals, builtins and functions have different symbols. -/
theorem nodup_symbols {globals : List String} {functionLabels : List String} (n : Nat)
    (hdistinct : globals.Nodup)
    (hlabels : ∀ label ∈ functionLabels, label = entryLabel ∨ ∃ rest, label.toList = 'm' :: rest)
    (hapart : ∀ g ∈ globals, userSymbol g ∉ functionLabels) (hnodup : functionLabels.Nodup) :
    (Builtin.all.map (·.name) ++ (globals.map userSymbol ++ (List.range n).map textLabel) ++
      functionLabels).Nodup := by
  have hbuiltin : ∀ x ∈ Builtin.all.map (·.name), x ≠ entryLabel ∧ x.toList.head? ≠ some 'm' ∧
      x.toList.head? ≠ some 's' := by decide
  have huser : ∀ name, (userSymbol name).toList.head? = some 'm' := fun name => by
    rw [toList_userSymbol]
    rfl
  have htext : ∀ i, (textLabel i).toList.head? = some 's' := fun i => by
    rw [toList_textLabel]
    rfl
  have hfirst : ∀ label ∈ functionLabels, label = entryLabel ∨ label.toList.head? = some 'm' :=
    fun label hlabel => (hlabels label hlabel).imp_right fun ⟨rest, hrest⟩ => by rw [hrest]; rfl
  have hdata : (globals.map userSymbol ++ (List.range n).map textLabel).Nodup := by
    refine List.nodup_append.2 ⟨hdistinct.map fun _ _ h => userSymbol_inj.1 h,
      List.nodup_range.map fun _ _ h => textLabel_inj.1 h, ?_⟩
    simp only [List.forall_mem_map]
    intro g _ i _ heq
    cases (huser g).symm.trans (heq ▸ htext i)
  have hexternal : (Builtin.all.map (·.name) ++
      (globals.map userSymbol ++ (List.range n).map textLabel)).Nodup := by
    refine List.nodup_append.2 ⟨by decide, hdata, fun x hx y hy heq => ?_⟩
    obtain ⟨-, hm, hs⟩ := hbuiltin x hx
    rcases List.mem_append.1 hy with hy | hy
    · obtain ⟨g, -, rfl⟩ := List.mem_map.1 hy
      exact hm (heq ▸ huser g)
    · obtain ⟨i, -, rfl⟩ := List.mem_map.1 hy
      exact hs (heq ▸ htext i)
  refine List.nodup_append.2 ⟨hexternal, hnodup, fun x hx label hlabel heq => ?_⟩
  subst heq
  rcases List.mem_append.1 hx with hx | hx
  · obtain ⟨hentry, hm, -⟩ := hbuiltin x hx
    exact (hfirst x hlabel).elim hentry hm
  · rcases List.mem_append.1 hx with hx | hx
    · obtain ⟨g, hg, rfl⟩ := List.mem_map.1 hx
      exact hapart g hg hlabel
    · obtain ⟨i, -, rfl⟩ := List.mem_map.1 hx
      rcases hfirst _ hlabel with hentry | hm
      · have hchars := htext i
        rw [hentry] at hchars
        cases hchars
      · cases hm.symm.trans (htext i)

/-- A call of a block goes to what the type checker chose. -/
theorem CallSite.chosen {cx : Context} {f : FunctionNode} {s₀ : State} {front : List Line} {n : Nat}
    {name : String} {blocks : List Block} (hexternals : out.externals = Builtin.all.map (·.name))
    (hblocks : ∀ d label, cx.labels.lookup d = some label →
      ∃ b ∈ blocks, b.definition = d ∧ b.label = label)
    (h : CallSite cx f s₀ front n name) : ChosenCall out blocks cx f s₀ front name := by
  cases h with
  | call point =>
    obtain ⟨-, -, calls, -⟩ := id point
    cases calls with
    | function target found scalar params lookup =>
      obtain ⟨b, hb, rfl, hlabel⟩ := hblocks _ _ lookup
      exact hlabel ▸ .function point hb target
    | @builtin name b target found =>
      have hname : b.name = name := by simpa using List.find?_some found
      refine .builtin point ?_ (hname ▸ target)
      rw [hexternals]
      exact List.mem_map.2 ⟨b, List.mem_of_find?_eq_some found, rfl⟩
  | exit point => exact .exit point (by rw [hexternals]; decide)

/-- The label that a function is found under. -/
theorem exists_labelOf {p : NodeId × FunctionNode}
    (hkinds : ∀ p ∈ functions, a.kind p.1 = .ok (.function p.2))
    (hp : p ∈ functions) : ∃ before, (labels functions).lookup p.1 =
      some (labelOf (functions.map (·.2.name)) before p.2.name) := by
  have hkey : p.1 ∈ (labels functions).map Prod.fst := by
    rw [labels, List.map_reverse, List.mem_reverse, keys_labelsFrom]
    exact List.mem_map_of_mem hp
  obtain ⟨label, hlookup, hmem⟩ := exists_lookup hkey
  obtain ⟨g, before, hg, rfl⟩ := mem_labelsFrom (List.mem_reverse.1 hmem)
  cases Except.ok.inj ((hkinds _ hg).symm.trans (hkinds p hp))
  exact ⟨before, hlookup⟩

/-- A label that is not a local one is defined as often as blocks have it. -/
theorem count_definedLabels {blocks : List Block} {label : String}
    (h : ∀ b ∈ blocks, label ∉ definedLabels b.body) :
    (definedLabels (blocks.flatMap Block.lines)).count label =
      (blocks.map Block.label).count label := by
  induction blocks with
  | nil => rfl
  | cons b blocks ih =>
    have hrest := ih fun b' hb' => h b' (by simp [hb'])
    have hbody : (definedLabels b.body).count label = 0 := List.count_eq_zero.2 (h b (by simp))
    unfold definedLabels at hrest hbody ⊢
    have hlines : b.lines.filterMap Line.label? = b.label :: b.body.filterMap Line.label? := rfl
    rw [List.flatMap_cons, List.filterMap_append, List.count_append, hrest, List.map_cons, hlines,
      List.count_cons, hbody, List.count_cons]
    omega

/-- Calls stand behind the set-up of the frame. -/
theorem split_behind_frame {cx : Context} {rest front back : List Line} {operands : List Operand}
    (h : frameCode cx ++ rest = front ++ .instruction .call operands :: back) :
    ∃ before, front = frameCode cx ++ before ∧
      rest = before ++ .instruction .call operands :: back := by
  rcases List.append_eq_append_iff.1 h with ⟨before, hfront, hrest⟩ | ⟨later, hframe, hlater⟩
  · exact ⟨before, hfront, hrest⟩
  · cases later with
    | nil => exact ⟨[], by simpa using hframe.symm, by simpa using hlater.symm⟩
    | cons first later =>
      have hfirst : first ∈ frameCode cx := by simp [hframe]
      obtain ⟨rfl, -⟩ := List.cons.inj hlater
      simp [frameCode, Line.push, Line.move] at hfirst

/-- What a block holds is there in the finished file. -/
theorem HoldsBlock.closed {blocks : List Block} {p : NodeId × FunctionNode} {b : Block}
    {cx : Context} {s₀ : State} (h : HoldsBlock a info table u functions out.texts.length p b cx s₀)
    (hf : a.kind p.1 = .ok (.function p.2))
    (hreserved : out.reserved.map Prod.fst = (a.names u.globals).map userSymbol)
    (hexternals : out.externals = Builtin.all.map (·.name))
    (hblocks : ∀ d label, (labels functions).lookup d = some label →
      ∃ b ∈ blocks, b.definition = d ∧ b.label = label) : b.Closed out blocks cx p.2 s₀ := by
  obtain ⟨⟨frame, hframe, rfl⟩, hdefinition, -, hruns, ⟨ks, js, hlays, hnodup, hsub⟩,
    ⟨rest, hbody, hvisited⟩, hleaves⟩ := h
  have hlabels : definedLabels b.body = ks.map labelName := hlays.labels
  refine ⟨hdefinition ▸ hf, hframe, decide_eq_true_iff, hruns, fun name hname => ?_, ?_,
    fun line hline hjump => ?_, fun line hline name hname => ?_, fun front operands back heq => ?_,
    hleaves⟩
  · rw [hlabels] at hname
    obtain ⟨k, -, rfl⟩ := List.mem_map.1 hname
    exact ⟨k, rfl⟩
  · rw [hlabels]
    exact hnodup.map fun _ _ heq => labelName_inj.1 heq
  · obtain ⟨k, hk, mnemonic, rfl⟩ := hlays.jumps line hline hjump
    exact ⟨labelName k, hlabels ▸ List.mem_map_of_mem (hsub hk), mnemonic, rfl⟩
  · rcases hlays.symbols line hline name hname with ⟨d, hd, binder, hbinder, rfl⟩ | ⟨i, hi, rfl⟩
    · refine List.mem_append_left _ ?_
      rw [hreserved]
      refine List.mem_map_of_mem (List.mem_map_of_mem (List.mem_filterMap.2 ⟨d, hd, ?_⟩))
      obtain ⟨span, hnode⟩ := Arena.kind_eq_ok_iff.1 hbinder
      simp [Arena.node_eq_ok_iff.1 hnode, NodeKind.binder?]
    · exact List.mem_append_right _ (List.mem_map_of_mem (List.mem_range.2 hi))
  · obtain ⟨before, hfront, hrest⟩ := split_behind_frame (hbody.symm.trans heq)
    obtain ⟨name, n, rfl, hsite⟩ := hvisited _ _ _ hrest
    exact ⟨before, name, hfront, rfl, hsite.chosen hexternals hblocks⟩

end Lowering

open Lowering

/-- A file is put together from the blocks of the functions of a program. -/
structure AssembledFrom (a : Arena) (info : SemanticInfo) (table : SymbolTable) (u : UnitNode)
    (functions : List (NodeId × FunctionNode)) (blocks : List Block) (out : Assembly) : Prop where
  keys : functions.map Prod.fst = u.functions
  kinds : ∀ p ∈ functions, a.kind p.1 = .ok (.function p.2)
  holds : List.Forall₂ (fun p b => ∃ cx texts,
    HoldsBlock a info table u functions out.texts.length p b cx { texts := texts }) functions blocks
  code : out.code = blocks.flatMap Block.lines
  externals : out.externals = Builtin.all.map (·.name)
  reserved : out.reserved.map Prod.fst = (a.names u.globals).map userSymbol

theorem Accepted.exists_blocks {a : Arena} {table : SymbolTable} {info : SemanticInfo}
    {u : UnitNode} {out : Assembly} (h : Accepted a table info) (hu : a.unit? = some u)
    (hout : a.assemble info table = .ok out) :
    ∃ functions blocks, AssembledFrom a info table u functions blocks out := by
  have hprogram := h.checked_of_unit hu
  obtain ⟨functions, hfunctions, hkeys, hkinds⟩ := hprogram.exists_functionsIn
  simp only [Arena.assemble, hu, hfunctions, lift_ok, ok_bind] at hout
  obtain ⟨start, hglobals, hfold⟩ := bind_eq_ok.1 hout
  obtain ⟨hstart, hreserved⟩ := foldlM_global hglobals
  obtain ⟨blocks, hblocks, hlast, -⟩ := Lowering.exists_blocks hprogram
    (fun p hp => ⟨hkeys ▸ List.mem_map_of_mem hp, hkinds p hp⟩) hfold
  refine ⟨functions, blocks, hkeys, hkinds, hblocks, ?_, ?_, ?_⟩
  · rw [hlast, hstart]
    simp [header]
  · rw [hlast, hstart]
    rfl
  · rw [hlast]
    simpa [header] using hreserved

namespace AssembledFrom

variable {a : Arena} {table : SymbolTable} {info : SemanticInfo} {u : UnitNode}
  {functions : List (NodeId × FunctionNode)} {blocks : List Block} {out : Assembly}
  (hfile : AssembledFrom a info table u functions blocks out)
include hfile

theorem labels_eq :
    blocks.map Block.label = functions.map fun p => ((labels functions).lookup p.1).getD "" :=
  (map_eq_map_of_forall₂ hfile.holds fun _ _ ⟨_, _, hb⟩ => hb.label.symm).symm

theorem definitions_eq : blocks.map Block.definition = u.functions := by
  rw [← hfile.keys]
  exact (map_eq_map_of_forall₂ hfile.holds fun _ _ ⟨_, _, hb⟩ => hb.definition.symm).symm

/-- The labels of functions come from their names. -/
theorem exists_labelOf {label : String} (h : label ∈ blocks.map Block.label) :
    ∃ p ∈ functions, ∃ before, (labels functions).lookup p.1 = some label ∧
      label = labelOf (functions.map (·.2.name)) before p.2.name := by
  rw [hfile.labels_eq] at h
  obtain ⟨p, hp, rfl⟩ := List.mem_map.1 h
  obtain ⟨before, hlookup⟩ := Lowering.exists_labelOf hfile.kinds hp
  exact ⟨p, hp, before, by rw [hlookup]; rfl, by rw [hlookup]; rfl⟩

/-- A function with a label has a block. -/
theorem exists_block {d : NodeId} {label : String} (h : (labels functions).lookup d = some label) :
    ∃ b ∈ blocks, b.definition = d ∧ b.label = label := by
  obtain ⟨g, -, hg, -⟩ := mem_labelsFrom (List.mem_reverse.1 (mem_of_lookup h))
  obtain ⟨b, hb, cx, texts, hholds⟩ := exists_of_forall₂_left hfile.holds hg
  exact ⟨b, hb, hholds.definition, by rw [hholds.label, h]; rfl⟩

/-- Blocks refer only to what is there. -/
theorem closed {b : Block} (hb : b ∈ blocks) :
    ∃ cx f texts, cx.arena = a ∧ cx.info = info ∧ cx.table = table ∧
      b.Closed out blocks cx f { texts := texts } := by
  obtain ⟨p, hp, cx, texts, hholds⟩ := exists_of_forall₂_right hfile.holds hb
  obtain ⟨frame, -, hcx⟩ := hholds.context
  exact ⟨cx, p.2, texts, by rw [hcx], by rw [hcx], by rw [hcx], hholds.closed (hfile.kinds p hp)
    hfile.reserved hfile.externals fun _ _ => hfile.exists_block⟩

/-- Labels of functions are defined as often as blocks have them: no local label looks like one. -/
theorem count_label {label : String} (h : label ∈ blocks.map Block.label ∨ label = entryLabel) :
    (definedLabels out.code).count label = (blocks.map Block.label).count label := by
  rw [hfile.code]
  refine count_definedLabels fun b hb hmem => ?_
  obtain ⟨cx, f, texts, -, -, -, hclosed⟩ := hfile.closed hb
  obtain ⟨k, rfl⟩ := hclosed.locals label hmem
  rcases h with h | h
  · obtain ⟨p, hp, before, hlookup, -⟩ := hfile.exists_labelOf h
    exact (label_ne hlookup).1 k rfl
  · exact labelName_ne_entryLabel k h

theorem entryLabel_mem_iff : entryLabel ∈ blocks.map Block.label ↔
    ∃ d ∈ u.functions, ∃ f, a.kind d = .ok (.function f) ∧ f.name = "main" := by
  constructor
  · intro hmem
    obtain ⟨p, hp, before, -, heq⟩ := hfile.exists_labelOf hmem
    exact ⟨p.1, hfile.keys ▸ List.mem_map_of_mem hp, p.2, hfile.kinds p hp,
      name_of_entryLabel heq.symm⟩
  · rintro ⟨d, hd, f, hf, hname⟩
    rw [← hfile.keys] at hd
    obtain ⟨p, hp, rfl⟩ := List.mem_map.1 hd
    cases Except.ok.inj (hf.symm.trans (hfile.kinds p hp))
    obtain ⟨before, hlookup⟩ := Lowering.exists_labelOf hfile.kinds hp
    rw [hfile.labels_eq]
    refine List.mem_map.2 ⟨p, hp, ?_⟩
    rw [hlookup, Option.getD_some, labelOf, if_pos hname]

/-- Different functions have different labels. -/
theorem nodup_labels (h : Accepted a table info) (hu : a.unit? = some u) :
    (blocks.map Block.label).Nodup := by
  have hprogram := h.checked_of_unit hu
  rw [hfile.labels_eq]
  exact Lowering.nodup_labels (hfile.keys ▸ hprogram.layout.nodup_functions)
    (fun p hp => (h.isName (hfile.kinds p hp)).1) ((h.isWellScoped hu).count_main hfile.keys
      hfile.kinds)

/-- All symbols of the file differ. -/
theorem nodup_symbols (h : Accepted a table info) (hu : a.unit? = some u) :
    (out.externals ++ out.dataSymbols ++ blocks.map Block.label).Nodup := by
  have hscoped := h.isWellScoped hu
  rw [Assembly.dataSymbols, hfile.externals, hfile.reserved]
  refine Lowering.nodup_symbols _ (List.nodup_append.1 hscoped.distinct).1 (fun label hlabel => ?_)
    (fun g hg hmem => ?_) (hfile.nodup_labels h hu)
  · obtain ⟨p, -, before, -, rfl⟩ := hfile.exists_labelOf hlabel
    exact labelOf_cases ..
  · obtain ⟨p, hp, before, -, heq⟩ := hfile.exists_labelOf hmem
    obtain ⟨d, -, b, hb, rfl⟩ := Arena.exists_of_mem_names hg
    exact userSymbol_ne_labelOf (h.isName hb).1 (hscoped.global_ne hfile.keys hfile.kinds hg hp) heq

end AssembledFrom

/-- The file of an accepted program is closed: its code is one block for each function, external
names, storage, text constants and functions have different symbols, every block refers only to what
is there, and `_start` is defined exactly if the program has a function `main`. -/
theorem Accepted.symbols_closed {a : Arena} {table : SymbolTable} {info : SemanticInfo}
    {u : UnitNode} {out : Assembly} (h : Accepted a table info) (hu : a.unit? = some u)
    (hout : a.assemble info table = .ok out) :
    ∃ blocks : List Block, blocks.map Block.definition = u.functions ∧
      out.code = blocks.flatMap Block.lines ∧ out.externals = Builtin.all.map (·.name) ∧
      (out.externals ++ out.dataSymbols ++ blocks.map Block.label).Nodup ∧
      (∀ b ∈ blocks, (definedLabels out.code).count b.label = 1 ∧
        ∃ cx f texts, cx.arena = a ∧ cx.info = info ∧ cx.table = table ∧
          b.Closed out blocks cx f { texts := texts }) ∧
      ((∃ d ∈ u.functions, ∃ f, a.kind d = .ok (.function f) ∧ f.name = "main") →
        (definedLabels out.code).count entryLabel = 1) ∧
      (¬(∃ d ∈ u.functions, ∃ f, a.kind d = .ok (.function f) ∧ f.name = "main") →
        (definedLabels out.code).count entryLabel = 0) := by
  obtain ⟨functions, blocks, hfile⟩ := h.exists_blocks hu hout
  have hdistinct := hfile.nodup_labels h hu
  refine ⟨blocks, hfile.definitions_eq, hfile.code, hfile.externals, hfile.nodup_symbols h hu,
    fun b hb => ⟨?_, hfile.closed hb⟩, fun hdeclared => ?_, fun hnone => ?_⟩
  · rw [hfile.count_label (.inl (List.mem_map_of_mem hb))]
    exact List.count_eq_one_of_mem hdistinct (List.mem_map_of_mem hb)
  · rw [hfile.count_label (.inr rfl)]
    exact List.count_eq_one_of_mem hdistinct (hfile.entryLabel_mem_iff.2 hdeclared)
  · rw [hfile.count_label (.inr rfl)]
    exact List.count_eq_zero.2 fun hmem => hnone (hfile.entryLabel_mem_iff.1 hmem)

/-! ### A program -/

namespace Linked

/-- A global, two functions of one name, an entry function with a loop and a branch, and a text. -/
def words : List String :=
  ["int", "g", ";", "int", "f", "(", "int", "x", ")", "\x7b", "return", "x", ";", "\x7d",
    "int", "f", "(", ")", "\x7b", "return", "g", ";", "\x7d",
    "int", "main", "(", ")", "\x7b", "text", "t", ";", "while", "(", "f", "(", "g", ")", "<",
    "9", ")",
    "\x7b", "if", "(", "f", "(", ")", "==", "3", ")", "\x7b", "t", "=", "\"a\"", ";", "\x7d",
    "g", "=", "g", "+", "1", ";", "\x7d", "writeInt", "(", "g", ")", ";", "return", "g",
    ";", "\x7d"]

def bytes : List UInt8 := words.flatMap fun w => w.toList.map (fun c => UInt8.ofNat c.toNat) ++ [32]

def program : Arena × SymbolTable × SemanticInfo := (accept? 2 bytes).get (by decide +kernel)

theorem accept?_bytes : accept? 2 bytes = some program := by
  rw [program, Option.some_get]

attribute [irreducible] program

theorem accepted : Accepted program.1 program.2.1 program.2.2 :=
  accepted_of_accept? accept?_bytes

def unit : UnitNode := program.1.unit?.get (by decide +kernel)

def file : Assembly := (program.1.assemble program.2.2 program.2.1).toOption.get (by decide +kernel)

/-- The file has a block for each of the three functions, and all its symbols differ. -/
theorem file_closed : program.1.assemble program.2.2 program.2.1 = .ok file ∧
    file.dataSymbols = ["mj_g", "str0"] ∧
    definedLabels file.code = ["mj_f@0", "mj_f@1", "_start", ".L0", ".L2", ".L1"] ∧
    ∃ blocks : List Block, blocks.map Block.definition = unit.functions ∧
      file.code = blocks.flatMap Block.lines ∧
      (file.externals ++ file.dataSymbols ++ blocks.map Block.label).Nodup ∧
      (∀ b ∈ blocks, ∃ cx f texts, b.Closed file blocks cx f { texts := texts }) ∧
      (definedLabels file.code).count entryLabel = 1 := by
  have hfile : program.1.assemble program.2.2 program.2.1 = .ok file := ok_get_toOption _
  have hunit : program.1.unit? = some unit := by rw [unit, Option.some_get]
  obtain ⟨blocks, hdefinitions, hcode, -, hsymbols, hblocks, -, -⟩ :=
    accepted.symbols_closed hunit hfile
  have hnames : file.dataSymbols = ["mj_g", "str0"] ∧
      definedLabels file.code = ["mj_f@0", "mj_f@1", "_start", ".L0", ".L2", ".L1"] ∧
      (definedLabels file.code).count entryLabel = 1 := by decide +kernel
  obtain ⟨hsymbol, hlabels, hentry⟩ := hnames
  refine ⟨hfile, hsymbol, hlabels, blocks, hdefinitions, hcode, hsymbols, fun b hb => ?_, hentry⟩
  obtain ⟨-, cx, f, texts, -, -, -, hclosed⟩ := hblocks b hb
  exact ⟨cx, f, texts, hclosed⟩

end Linked

end MiniJ
