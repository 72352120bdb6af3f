import MiniJ.Proofs.Compilation.Phases
import MiniJ.Proofs.Lowering.Symbols
import MiniJ.Proofs.Lowering.Tandem
import MiniJ.Proofs.Typing.Reorder
import MiniJ.Proofs.Typing.Resolution

/-!
# Code of functions in another order

Each function of a program is lowered on its own: its frame, its registers and its labels do not
depend on the functions around it. Only the text constants are handed from one function to the next,
and the label of an overloaded function is numbered. So in a program without texts, whose functions
have names of their own, the functions may stand in any order: each of them has the same code, and
it stands where the function stands.

## Main definitions

* `Arena.CheckedAlike` — what code generation sees of two checked programs is the same.
* `soleLabel` — the label of a function that shares its name with no other.
* `Lowering.blockOf` — the lines of the file that a function comes to.
* `Arena.LaidOut` — a text that is a head and then the blocks of the functions.

## Main statements

* `Arena.Reorders.function_eq` — a function has the same code in both programs.
* `Arena.compile_reorder` — programs that list their functions in another order.
-/
namespace MiniJ

open Outcome

/-! ### What code generation sees -/

/-- A variable is left when the builtins are dropped. -/
theorem SameVariable.withoutBuiltins {table table' : SymbolTable} {info info' : SemanticInfo}
    {v : NodeId} (h : SameVariable table table' info info' v) :
    SameVariable table.withoutBuiltins table'.withoutBuiltins info info' v := by
  obtain ⟨e, e', x, x', hrow, hrow', hx, hx', hname, hmeaning, hvar⟩ := h
  obtain ⟨ty, ref, cls, d, hm⟩ : ∃ ty ref cls d, x.meaning = .var ty ref cls d := by
    cases hm : x.meaning with
    | var ty ref cls d => exact ⟨ty, ref, cls, d, rfl⟩
    | _ => rw [hm] at hvar; exact hvar.elim
  exact ⟨e, e', x, x', hrow, hrow', SymbolTable.entry_withoutBuiltins_var hx hm,
    SymbolTable.entry_withoutBuiltins_var hx' (hmeaning.trans hm), hname, hmeaning, hvar⟩

namespace Arena

variable {a a' : Arena} {u u' : UnitNode} {table table' : SymbolTable} {info info' : SemanticInfo}

/-- Two checked programs have the same records, the same types and targets, and variables that stand
for the same. -/
structure CheckedAlike (a : Arena) (table table' : SymbolTable) (info info' : SemanticInfo) :
    Prop where
  records : table.SameRecords table'
  typeOf : info.typeOf = info'.typeOf
  callTarget : info.callTarget = info'.callTarget
  sameVariable : ∀ v name, a.kind v = .ok (.var name) → SameVariable table table' info info' v

/-- What a check leaves as it was. -/
theorem tables_of_check {r : Except (Failure SemanticError) Unit} {t : SymbolTable}
    {i : SemanticInfo}
    (h : a.check table info = (r, t, i)) :
    t = table.withoutBuiltins ∧ i.resolved = info.resolved := by
  cases h
  exact ⟨rfl, rfl⟩

theorem Reorders.checkedAlike (h : a.Reorders a' u u') (hcomplete : a.Complete u)
    (hnames : a.NamesFunctionsOnce u) (hbind : a.bind {} = (.ok (), table, info))
    (hbind' : a'.bind {} = (.ok (), table', info')) {t t' : SymbolTable} {i i' : SemanticInfo}
    (hcheck : a.check table info = (.ok (), t, i))
    (hcheck' : a'.check table' info' = (.ok (), t', i')) :
    a.CheckedAlike t t' i i' := by
  have hbound := h.boundAlike hcomplete hnames hbind hbind'
  have hrows := h.check_rows hcomplete hnames hbind hbind' hcheck hcheck'
  obtain ⟨rfl, hresolved⟩ := tables_of_check hcheck
  obtain ⟨rfl, hresolved'⟩ := tables_of_check hcheck'
  refine ⟨h.sameRecords hcomplete.spread hbind hbind' hbound, funext fun x => (hrows x).1.symm,
    funext fun x => (hrows x).2.symm, fun v name hk => ?_⟩
  obtain ⟨e, e', x, x', hrow, hrow', hrest⟩ :=
    SameVariable.withoutBuiltins (hbound.sameVariable v name hk)
  refine ⟨e, e', x, x', ?_, ?_, hrest⟩
  · rwa [SemanticInfo.resolvedEntry, hresolved]
  · rwa [SemanticInfo.resolvedEntry, hresolved']

namespace CheckedAlike

theorem variableOf (h : a.CheckedAlike table table' info info') {v : NodeId} {name : String}
    (hk : a.kind v = .ok (.var name)) : info.variableOf table v = info'.variableOf table' v := by
  obtain ⟨e, e', x, x', hrow, hrow', hx, hx', -, hm, -⟩ := h.sameVariable v name hk
  simp only [SemanticInfo.variableOf, hrow, hrow', hx, hx', hm, ok_bind]

theorem frameMatches (h : a.CheckedAlike table table' info info') (halike : a.Alike a') :
    Frame.Matches a a' info info' table table' :=
  ⟨halike, h.callTarget, fun _ _ hk => h.variableOf hk, h.records.sizeOf.symm⟩

end CheckedAlike

end Arena

namespace Gen

variable {cx cx' : Context} {u u' : UnitNode}

/-- Steps behind values that were looked up. -/
theorem tandem_lift_bind {α β : Type} {x y : Except Fault α} {v w : α} {f g : α → Gen β}
    (hx : x = .ok v) (hy : y = .ok w) (h : Tandem cx cx' (f v) (g w)) :
    Tandem cx cx' (liftM x >>= f) (liftM y >>= g) := by
  subst hx hy
  intro s
  change Gen.bind (fun _ s => .ok ⟨v, [], s⟩) f cx s = Gen.bind (fun _ s => .ok ⟨w, [], s⟩) g cx' s
  simp only [Gen.bind, h s]

/-- A variable has the same storage. -/
theorem tandem_slotOf {v : NodeId} (halike : cx.arena.Alike cx'.arena)
    (hframe : cx.frame = cx'.frame) (h : SameVariable cx.table cx'.table cx.info cx'.info v) :
    Tandem cx cx' (slotOf v) (slotOf v) := by
  obtain ⟨e, e', x, x', hrow, hrow', hx, hx', hname, hm, -⟩ := h
  refine tandem_context ?_
  simp only [hrow, hrow']
  refine tandem_lift_bind hx hx' ?_
  rw [hname, hm, hframe]
  split
  · exact tandem_pure _
  · split
    · exact tandem_pure _
    · exact tandem_unsupported halike _
  · exact tandem_unsupported halike _

/-- The contexts that a function is lowered in. -/
theorem Context.Matches.of_reorders (h : cx.arena.Reorders cx'.arena u u')
    (halike : cx.arena.CheckedAlike cx.table cx'.table cx.info cx'.info)
    (hlabels : ∀ d, cx.labels.lookup d = cx'.labels.lookup d) (hframe : cx.frame = cx'.frame)
    (hentry : cx.isEntry = cx'.isEntry) : cx.Matches cx' where
  arena := h.alike
  typeOf := halike.typeOf
  callTarget := halike.callTarget
  slotOf v name hk := tandem_slotOf h.alike hframe (halike.sameVariable v name hk)
  sizeOf := halike.records.sizeOf.symm
  field := halike.records.field.symm
  fields := halike.records.fields.symm
  recordDepth := halike.records.recordDepth.symm
  labels := hlabels
  frame := hframe
  isEntry := hentry

end Gen

namespace Lowering

open Gen

variable {cx cx' : Context} {u u' : UnitNode}

/-- Statements have the same code. The roots differ, but they are no statements. -/
theorem tandem_statement_reorders (h : cx.arena.Reorders cx'.arena u u') (hmatch : cx.Matches cx')
    (depth : Nat) : TandemStatements cx cx' (Lowering.statement (ofArena cx.arena) depth)
      (Lowering.statement (ofArena cx'.arena) depth) := by
  induction depth with
  | zero => exact fun _ => tandem_fail _
  | succ depth ih =>
    intro x
    rw [statement_succ, statement_succ]
    by_cases hx : x = NodeId.root
    · subst hx
      intro s
      obtain ⟨span, hroot, hroot'⟩ := h.root
      rw [kind_bind_apply _ (Arena.kind_eq_ok_iff.2 ⟨span, hroot⟩),
        kind_bind_apply _ (Arena.kind_eq_ok_iff.2 ⟨span, hroot'⟩), statementOf, statementOf]
      exact tandem_pure () s
    · refine tandem_bind (tandem_kind (h.node x hx).symm) fun k => ?_
      exact tandem_statementOf hmatch (tandem_ofArena hmatch) ih k

end Lowering

namespace Arena.Reorders

variable {a a' : Arena} {u u' : UnitNode} {table table' : SymbolTable} {info info' : SemanticInfo}
  {labels labels' : List (NodeId × String)}

/-- A function has the same frame. -/
theorem layout_eq (h : a.Reorders a' u u') (hspread : a.Spread u)
    (halike : a.CheckedAlike table table' info info') {d : NodeId} {f : FunctionNode}
    (hd : d ∈ u.functions) (hf : a.kind d = .ok (.function f)) :
    Frame.layout a' info' table' f = Frame.layout a info table f := by
  refine ((halike.frameMatches h.alike).layout fun r hr => ?_).symm
  obtain ⟨-, -, lo, htree⟩ := h.function_tree hspread hd
  have hmem : r ∈ (NodeKind.function f).children := List.mem_append_right _ hr
  obtain ⟨start, hstart, -⟩ := htree.child hf hmem
  exact (h.walk hstart (h.child_ne_root htree hf hmem)).symm

/-- A function has the same code, or none for the same reason. -/
theorem function_eq (h : a.Reorders a' u u') (hspread : a.Spread u)
    (halike : a.CheckedAlike table table' info info')
    (hlabels : ∀ d, labels.lookup d = labels'.lookup d) {d : NodeId} {f : FunctionNode}
    (hd : d ∈ u.functions) (hf : a.kind d = .ok (.function f)) (texts : List String)
    (label : String) :
    Lowering.function a' info' table' labels' texts label f =
      Lowering.function a info table labels texts label f := by
  have hbody : ∀ frame : Frame, Lowering.functionBody label f
      ⟨a', info', table', labels', frame, label = entryLabel⟩ { texts := texts } =
      Lowering.functionBody label f ⟨a, info, table, labels, frame, label = entryLabel⟩
        { texts := texts } := by
    intro frame
    have hmatch : Gen.Context.Matches ⟨a, info, table, labels, frame, label = entryLabel⟩
        ⟨a', info', table', labels', frame, label = entryLabel⟩ :=
      .of_reorders h halike hlabels rfl rfl
    exact (Lowering.tandem_functionBody hmatch label f
      (fun depth => Lowering.tandem_statement_reorders h hmatch depth) { texts := texts }).symm
  simp only [Lowering.function, h.layout_eq hspread halike hd hf, hbody]

end Arena.Reorders

/-! ### Labels -/

/-- The label of a function that shares its name with no other. -/
def soleLabel (name : String) : String :=
  if name = "main" then entryLabel else userSymbol name

namespace Lowering

variable {a : Arena} {u : UnitNode} {table : SymbolTable} {info : SemanticInfo}
  {functions functions' : List (NodeId × FunctionNode)}

theorem labelOf_of_count_one {all before : List String} {name : String} (h : all.count name = 1) :
    labelOf all before name = soleLabel name := by
  rw [labelOf, if_pos h, soleLabel]

theorem lookup_labels (hkinds : ∀ p ∈ functions, a.kind p.1 = .ok (.function p.2))
    (hnames : (functions.map (·.2.name)).Nodup) {p : NodeId × FunctionNode} (hp : p ∈ functions) :
    (labels functions).lookup p.1 = some (soleLabel p.2.name) := by
  obtain ⟨before, hlookup⟩ := exists_labelOf hkinds hp
  rw [hlookup, labelOf_of_count_one (List.count_eq_one_of_mem hnames (List.mem_map.2 ⟨p, hp, rfl⟩))]

theorem lookup_labels_eq_none {d : NodeId} (h : ∀ p ∈ functions, p.1 ≠ d) :
    (labels functions).lookup d = none := by
  cases hfound : (labels functions).lookup d with
  | none => rfl
  | some label =>
    obtain ⟨g, -, hg, -⟩ := mem_labelsFrom (List.mem_reverse.1 (mem_of_lookup hfound))
    exact absurd rfl (h _ hg)

/-- When names are not shared, the order of the functions does not show in their labels. -/
theorem lookup_labels_perm (hperm : functions'.Perm functions)
    (hkinds : ∀ p ∈ functions, a.kind p.1 = .ok (.function p.2))
    (hnames : (functions.map (·.2.name)).Nodup) (d : NodeId) :
    (labels functions).lookup d = (labels functions').lookup d := by
  by_cases hd : ∃ p ∈ functions, p.1 = d
  · obtain ⟨p, hp, rfl⟩ := hd
    rw [lookup_labels hkinds hnames hp, lookup_labels (a := a) (fun q hq =>
      hkinds q (hperm.mem_iff.1 hq))
      ((hperm.map _).nodup_iff.2 hnames) (hperm.mem_iff.2 hp)]
  · have hnone : ∀ p ∈ functions, p.1 ≠ d := fun p hp heq => hd ⟨p, hp, heq⟩
    rw [lookup_labels_eq_none hnone,
      lookup_labels_eq_none fun p hp => hnone p (hperm.mem_iff.1 hp)]

/-! ### Blocks -/

/-- In a program without texts, a function adds none, and its label comes first. -/
theorem function_textless {labels : List (NodeId × String)} {label : String} {d : NodeId}
    {f : FunctionNode} {code : List Line} {texts : List String} (htextless : a.Textless)
    (hprogram : CheckedProgram a u table info) (hd : d ∈ u.functions)
    (hf : a.kind d = .ok (.function f))
    (h : Lowering.function a info table labels [] label f = .ok (code, texts)) :
    texts = [] ∧ ∃ body, code = .label label :: body := by
  obtain ⟨frame, hframe, hbody⟩ := bind_eq_ok.1 h
  obtain ⟨output, hemits, houtput⟩ := bind_eq_ok.1 hbody
  cases pure_eq_ok.1 houtput
  generalize hcx : (⟨a, info, table, labels, frame, label = entryLabel⟩ : Gen.Context) =
    cx at hemits
  have hlowers : cx.Lowers u f := by
    rw [← hcx]
    exact ⟨hprogram, ⟨d, hd, hf⟩, hframe⟩
  obtain ⟨body, -, -, hcode, -, -, -, hgrow⟩ := tidy_functionBody hlowers hemits
  exact ⟨hgrow.eq_of_textless (hcx ▸ htextless), body, hcode⟩

/-- The code of a function whose file has no texts. -/
def codeOf (a : Arena) (info : SemanticInfo) (table : SymbolTable) (labels : List (NodeId × String))
    (p : NodeId × FunctionNode) : Except (Failure CodegenError) (List Line × List String) :=
  Lowering.function a info table labels [] ((labels.lookup p.1).getD "") p.2

/-- Without texts, the code of a function goes behind the other code, and nothing else changes. -/
theorem addFunction_eq_ok_iff {labels : List (NodeId × String)} {p : NodeId × FunctionNode}
    {out out' : Assembly} (hout : out.texts = [])
    (htexts : ∀ code texts, codeOf a info table labels p = .ok (code, texts) → texts = []) :
    addFunction a info table labels out p = .ok out' ↔
      ∃ code, codeOf a info table labels p = .ok (code, []) ∧
        out' = { out with code := out.code ++ code } := by
  rw [addFunction, hout]
  constructor
  · intro h
    obtain ⟨⟨code, texts⟩, hcode, hdone⟩ := bind_eq_ok.1 h
    cases htexts code texts hcode
    cases pure_eq_ok.1 hdone
    exact ⟨code, hcode, by rw [← hout]⟩
  · rintro ⟨code, hcode, rfl⟩
    exact bind_eq_ok.2 ⟨_, hcode, by rw [← hout]; rfl⟩

theorem foldlM_addFunction_eq_ok_iff {labels : List (NodeId × String)}
    {ps : List (NodeId × FunctionNode)} {out out' : Assembly} (hout : out.texts = [])
    (htexts : ∀ p ∈ ps, ∀ code texts, codeOf a info table labels p = .ok (code, texts) →
      texts = []) :
    ps.foldlM (addFunction a info table labels) out = .ok out' ↔
      ∃ codes, List.Forall₂ (fun p code => codeOf a info table labels p = .ok (code, [])) ps codes ∧
        out' = { out with code := out.code ++ codes.flatten } := by
  induction ps generalizing out with
  | nil =>
    simp only [List.foldlM_nil, pure_eq_ok, List.forall₂_nil_left_iff, exists_eq_left,
      List.flatten_nil, List.append_nil]
    exact eq_comm
  | cons p ps ih =>
    have hrest := fun q hq => htexts q (List.mem_cons_of_mem p hq)
    simp only [foldlM_cons_eq_ok, addFunction_eq_ok_iff hout (htexts p (by simp)),
      List.forall₂_cons_left_iff]
    constructor
    · rintro ⟨mid, ⟨code, hcode, rfl⟩, h⟩
      obtain ⟨codes, hcodes, rfl⟩ := (ih (by exact hout) hrest).1 h
      exact ⟨code :: codes, ⟨code, codes, hcode, hcodes, rfl⟩, by simp⟩
    · rintro ⟨_, ⟨code, codes, hcode, hcodes, rfl⟩, rfl⟩
      exact ⟨_, ⟨code, hcode, rfl⟩, (ih (by exact hout) hrest).2 ⟨codes, hcodes, by simp⟩⟩

end Lowering

/-! ### Lines of a file -/

namespace Assembly

/-- The lines in front of the code. -/
def headLines (out : Assembly) : List String :=
  ["DEFAULT REL", "bits 64"] ++ out.externals.map ("extern " ++ ·) ++
    out.globals.map ("global " ++ ·) ++
    ["", "section .data"] ++ textLines 0 out.texts ++
    ["", "section .bss", "alignb 8"] ++
    out.reserved.map (fun (name, size) => s!"{name}: resb {size}") ++
    ["", "section .text"]

theorem getLast?_headLines (out : Assembly) : out.headLines.getLast? = some "section .text" := by
  rw [headLines, List.getLast?_append]
  rfl

/-- A text of some lines. -/
def ofLines (lines : List String) : String := String.join (lines.map (· ++ "\n"))

theorem render_eq_ok_iff {out : Assembly} {text : String} : out.render = .ok text ↔
    ∃ lines, out.code.mapM (·.render) = .ok lines ∧ text = ofLines (out.headLines ++ lines) := by
  simp only [render, lines, bind_eq_ok, pure_eq_ok]
  constructor
  · rintro ⟨_, ⟨lines, hlines, rfl⟩, rfl⟩
    exact ⟨lines, hlines, rfl⟩
  · rintro ⟨lines, hlines, rfl⟩
    exact ⟨_, ⟨lines, hlines, rfl⟩, rfl⟩

end Assembly

/-- Code in pieces is rendered piece by piece. -/
theorem mapM_render_flatten {codes : List (List Line)} {lines : List String} :
    codes.flatten.mapM Line.render = .ok lines ↔
      ∃ blocks, List.Forall₂ (fun code block => code.mapM Line.render = .ok block) codes blocks ∧
        lines = blocks.flatten := by
  induction codes generalizing lines with
  | nil =>
    simp only [List.flatten_nil, List.mapM_nil, pure_eq_ok, List.forall₂_nil_left_iff,
      exists_eq_left]
    exact eq_comm
  | cons code codes ih =>
    rw [List.flatten_cons, List.mapM_append]
    simp only [bind_eq_ok, pure_eq_ok, ih, List.forall₂_cons_left_iff]
    constructor
    · rintro ⟨block, hblock, _, ⟨blocks, hblocks, rfl⟩, rfl⟩
      exact ⟨block :: blocks, ⟨block, blocks, hblock, hblocks, rfl⟩, rfl⟩
    · rintro ⟨_, ⟨block, blocks, hblock, hblocks, rfl⟩, rfl⟩
      exact ⟨block, hblock, _, ⟨blocks, hblocks, rfl⟩, rfl⟩

/-! ### Programs -/

namespace Lowering

variable {a : Arena} {u : UnitNode} {table : SymbolTable} {info : SemanticInfo}
  {labels : List (NodeId × String)} {functions : List (NodeId × FunctionNode)}

/-- The lines of a function whose file has no texts. -/
def blockOf (a : Arena) (info : SemanticInfo) (table : SymbolTable)
    (labels : List (NodeId × String))
    (d : NodeId) : Except (Failure CodegenError) (List String) := do
  match ← a.function? d with
  | none => return []
  | some f =>
    let (code, _) ← codeOf a info table labels (d, f)
    (code.mapM Line.render : Except Fault (List String))

theorem blockOf_eq_ok_iff {d : NodeId} {f : FunctionNode} {block : List String}
    (hf : a.kind d = .ok (.function f)) : blockOf a info table labels d = .ok block ↔
      ∃ code texts, codeOf a info table labels (d, f) = .ok (code, texts) ∧
        code.mapM Line.render = .ok block := by
  simp only [blockOf, Arena.function?_eq_ok hf, lift_ok, ok_bind, bind_eq_ok, Prod.exists,
    lift_eq_ok]

theorem functionsIn_of_kinds (h : ∀ p ∈ functions, a.kind p.1 = .ok (.function p.2)) :
    functionsIn a (functions.map Prod.fst) = .ok functions := by
  refine bind_eq_ok.2 ⟨functions.map some, mapM_eq_ok.2 ?_, by simp [pure_eq_ok]⟩
  rw [List.forall₂_map_left_iff, List.forall₂_map_right_iff, List.forall₂_same]
  intro p hp
  rw [Arena.function?_eq_ok (h p hp)]
  rfl

/-- Without texts, a file is a head and the blocks of the functions. -/
theorem generate_eq_ok_iff (hu : a.unit? = some u) (hkeys : functions.map Prod.fst = u.functions)
    (hkinds : ∀ p ∈ functions, a.kind p.1 = .ok (.function p.2))
    (htexts : ∀ p ∈ functions, ∀ code texts,
      codeOf a info table (Lowering.labels functions) p = .ok (code, texts) → texts = [])
    (text : String) :
    a.generate info table = .ok text ↔
      ∃ start, u.globals.foldlM (global a table) header = .ok start ∧
      (∀ d ∈ u.functions, ∃ block, blockOf a info table (Lowering.labels functions) d = .ok block) ∧
      text = Assembly.ofLines (start.headLines ++ u.functions.flatMap fun d =>
        (blockOf a info table (Lowering.labels functions) d).toOption.getD []) := by
  have hfunctions := functionsIn_of_kinds hkinds
  rw [hkeys] at hfunctions
  have hblocks : ∀ blocks,
      u.functions.mapM (blockOf a info table (Lowering.labels functions)) = .ok blocks ↔
      ∃ codes, List.Forall₂
          (fun p code => codeOf a info table (Lowering.labels functions) p = .ok (code, []))
        functions codes ∧
          List.Forall₂ (fun code block => code.mapM Line.render = .ok block) codes blocks := by
    intro blocks
    rw [forall₂_exists_iff, mapM_eq_ok, ← hkeys, List.forall₂_map_left_iff]
    refine forall₂_congr_left fun p hp block => ?_
    rw [blockOf_eq_ok_iff (hkinds p hp)]
    constructor
    · rintro ⟨code, texts, hcode, hblock⟩
      cases htexts p hp code texts hcode
      exact ⟨code, hcode, hblock⟩
    · rintro ⟨code, hcode, hblock⟩
      exact ⟨code, [], hcode, hblock⟩
  simp only [mapM_eq_ok_iff_map []] at hblocks
  simp only [Arena.generate, Arena.assemble, hu, hfunctions, lift_ok, ok_bind, bind_eq_ok,
    lift_eq_ok, Assembly.render_eq_ok_iff]
  constructor
  · rintro ⟨out, ⟨start, hstart, hout⟩, lines, hlines, rfl⟩
    obtain ⟨hsame, -⟩ := foldlM_global hstart
    have htextless : start.texts = [] := by rw [hsame]; rfl
    obtain ⟨codes, hcodes, rfl⟩ := (foldlM_addFunction_eq_ok_iff htextless htexts).1 hout
    rw [hsame] at hlines
    obtain ⟨blocks, hrendered, rfl⟩ := mapM_render_flatten.1 hlines
    obtain ⟨hall, rfl⟩ := (hblocks blocks).2 ⟨codes, hcodes, hrendered⟩
    exact ⟨start, hstart, hall, rfl⟩
  · rintro ⟨start, hstart, hall, rfl⟩
    obtain ⟨hsame, -⟩ := foldlM_global hstart
    have htextless : start.texts = [] := by rw [hsame]; rfl
    obtain ⟨codes, hcodes, hrendered⟩ := (hblocks _).1 ⟨hall, rfl⟩
    refine ⟨_, ⟨start, hstart, (foldlM_addFunction_eq_ok_iff htextless htexts).2 ⟨codes, hcodes,
      rfl⟩⟩, _, ?_, rfl⟩
    rw [hsame]
    exact mapM_render_flatten.2 ⟨_, hrendered, rfl⟩

end Lowering

namespace Arena.Reorders

variable {a a' : Arena} {u u' : UnitNode} {table table' : SymbolTable} {info info' : SemanticInfo}

theorem blockOf_eq (h : a.Reorders a' u u') (hspread : a.Spread u)
    (halike : a.CheckedAlike table table' info info') {labels labels' : List (NodeId × String)}
    (hlabels : ∀ d, labels.lookup d = labels'.lookup d) {d : NodeId} (hd : d ∈ u.functions) :
    Lowering.blockOf a' info' table' labels' d = Lowering.blockOf a info table labels d := by
  obtain ⟨⟨f, hf⟩, -⟩ := h.function_tree hspread hd
  simp only [Lowering.blockOf, Lowering.codeOf, ← h.alike.function?, function?_eq_ok hf, lift_ok,
    ok_bind, h.function_eq hspread halike hlabels hd hf, hlabels]

/-- The functions of both programs, each with its label. -/
theorem exists_functions (h : a.Reorders a' u u') (hspread : a.Spread u)
    (hnames : a.NamesFunctionsOnce u) : ∃ functions functions' : List (NodeId × FunctionNode),
      functions.map Prod.fst = u.functions ∧ functions'.map Prod.fst = u'.functions ∧
      functions'.Perm functions ∧ (∀ p ∈ functions, a.kind p.1 = .ok (.function p.2)) ∧
      (functions.map (·.2.name)).Nodup := by
  have hfunction : ∀ d ∈ u.functions, ∃ f, a.kind d = .ok (.function f) := fun d hd =>
    (h.function_tree hspread hd).1
  obtain ⟨functions, -, hkeys, hkinds⟩ := Lowering.exists_functionsIn hfunction
  obtain ⟨functions', hkeys', hperm⟩ := h.exists_parts hkeys
  refine ⟨functions, functions', hkeys, hkeys', hperm, hkinds, ?_⟩
  rw [NamesFunctionsOnce, overloads_eq hkeys hkinds, List.map_map] at hnames
  exact hnames

/-- The other program has the same head and the same blocks. -/
theorem generate_eq_ok_iff (h : a.Reorders a' u u') (hspread : a.Spread u)
    (halike : a.CheckedAlike table table' info info')
    {functions functions' : List (NodeId × FunctionNode)}
    (hkeys : functions.map Prod.fst = u.functions) (hkeys' : functions'.map Prod.fst = u'.functions)
    (hperm : functions'.Perm functions) (hkinds : ∀ p ∈ functions, a.kind p.1 = .ok (.function p.2))
    (hnames : (functions.map (·.2.name)).Nodup)
    (htexts : ∀ p ∈ functions, ∀ code texts,
      Lowering.codeOf a info table (Lowering.labels functions) p = .ok (code, texts) → texts = [])
    (text : String) : a'.generate info' table' = .ok text ↔
      ∃ start, u.globals.foldlM (Lowering.global a table) Lowering.header = .ok start ∧
      (∀ d ∈ u.functions, ∃ block,
        Lowering.blockOf a info table (Lowering.labels functions) d = .ok block) ∧
      text = Assembly.ofLines (start.headLines ++ u'.functions.flatMap fun d =>
        (Lowering.blockOf a info table (Lowering.labels functions) d).toOption.getD []) := by
  have hkinds' : ∀ p ∈ functions', a'.kind p.1 = .ok (.function p.2) := fun p hp =>
    (h.kind_iff (by simp)).2 (hkinds p (hperm.mem_iff.1 hp))
  have hlabels := Lowering.lookup_labels_perm hperm hkinds hnames
  have hmem : ∀ p ∈ functions, p.1 ∈ u.functions := fun p hp => hkeys ▸ List.mem_map_of_mem hp
  have hcode : ∀ p ∈ functions, Lowering.codeOf a' info' table' (Lowering.labels functions') p =
      Lowering.codeOf a info table (Lowering.labels functions) p := by
    intro p hp
    rw [Lowering.codeOf, Lowering.codeOf, h.function_eq hspread halike hlabels (hmem p hp)
      (hkinds p hp), hlabels]
  have hblock : ∀ d ∈ u.functions, Lowering.blockOf a' info' table' (Lowering.labels functions') d =
      Lowering.blockOf a info table (Lowering.labels functions) d := fun d hd =>
    h.blockOf_eq hspread halike hlabels hd
  have hblocks : (u'.functions.flatMap fun d =>
      (Lowering.blockOf a' info' table' (Lowering.labels functions') d).toOption.getD []) =
      u'.functions.flatMap fun d =>
        (Lowering.blockOf a info table (Lowering.labels functions) d).toOption.getD [] :=
    List.flatMap_congr fun d hd => by rw [hblock d (h.functions.mem_iff.1 hd)]
  rw [Lowering.generate_eq_ok_iff h.symm.unit? hkeys' hkinds' fun p hp code texts hp' =>
    htexts p (hperm.mem_iff.1 hp) code texts (hcode p (hperm.mem_iff.1 hp) ▸ hp')]
  rw [h.globals, ← Lowering.global_eq h.alike halike.records.sizeOf.symm, hblocks]
  have hall : (∀ d ∈ u'.functions, ∃ block,
      Lowering.blockOf a' info' table' (Lowering.labels functions') d = .ok block) ↔
      ∀ d ∈ u.functions, ∃ block,
        Lowering.blockOf a info table (Lowering.labels functions) d = .ok block :=
    ⟨fun hall d hd => hblock d hd ▸ hall d (h.functions.mem_iff.2 hd),
      fun hall d hd => (hblock d (h.functions.mem_iff.1 hd)).symm ▸ hall d
        (h.functions.mem_iff.1 hd)⟩
  rw [hall]

end Arena.Reorders

/-! ### Compilations -/

namespace Arena

variable {a a' : Arena} {u u' : UnitNode} {table table' : SymbolTable} {info info' : SemanticInfo}

/-- Binding and type checking succeed and come to these tables. -/
def Passes (a : Arena) (table : SymbolTable) (info : SemanticInfo) : Prop :=
  ∃ table₀ info₀, a.bind {} = (.ok (), table₀, info₀) ∧ a.check table₀ info₀ = (.ok (), table, info)

/-- A text consists of a head, up to the code, and then one block for each function in order: its
label and the code behind it. -/
structure LaidOut (a : Arena) (info : SemanticInfo) (table : SymbolTable) (u : UnitNode)
    (text : String) (head : List String) (block : NodeId → List String) : Prop where
  text : text = Assembly.ofLines (head ++ u.functions.flatMap block)
  ends : head.getLast? = some "section .text"
  blocks : ∃ functions, Lowering.functionsIn a u.functions = .ok functions ∧ ∀ d ∈ u.functions,
    ∃ f code, a.kind d = .ok (.function f) ∧
      Lowering.function a info table (Lowering.labels functions) [] (soleLabel f.name) f =
        .ok (.label (soleLabel f.name) :: code, []) ∧
      (Line.label (soleLabel f.name) :: code).mapM Line.render = .ok (block d)

theorem compiles_iff {r : Artifact} : compileArena .generate a = .ok r ↔ ∃ table info text,
    a.Passes table info ∧ requireTargets a info = .ok () ∧ a.generate info table = .ok text ∧
      r = ⟨a, some info, some table, some text⟩ := by
  rw [compileArena_eq_ok_iff]
  constructor
  · rintro ⟨table₀, info₀, table, info, text, hbind, hcheck, hrest⟩
    exact ⟨table, info, text, ⟨table₀, info₀, hbind, hcheck⟩, hrest⟩
  · rintro ⟨table, info, text, ⟨table₀, info₀, hbind, hcheck⟩, hrest⟩
    exact ⟨table₀, info₀, table, info, text, hbind, hcheck, hrest⟩

namespace Reorders

/-- Both programs pass, or none does. -/
theorem passes_iff (h : a.Reorders a' u u') (hcomplete : a.Complete u)
    (hnames : a.NamesFunctionsOnce u) :
    (∃ table' info', a'.Passes table' info') ↔ ∃ table info, a.Passes table info := by
  have hpasses : ∀ a : Arena, (∃ table info, a.Passes table info) ↔ ∃ table₀ info₀,
      a.bind {} = (.ok (), table₀, info₀) ∧ (a.check table₀ info₀).1 = .ok () := fun a =>
    ⟨fun ⟨_, _, table₀, info₀, hbind, hcheck⟩ => ⟨table₀, info₀, hbind, congrArg Prod.fst hcheck⟩,
      fun ⟨table₀, info₀, hbind, hcheck⟩ => ⟨_, _, table₀, info₀, hbind, Prod.ext hcheck rfl⟩⟩
  have hbound := h.bind_iff hcomplete.spread
  rw [hpasses, hpasses]
  constructor
  · rintro ⟨table', info', hbind', hcheck'⟩
    have hbind : a.bind {} = (.ok (), (a.bind {}).2) :=
      Prod.ext (hbound.1 (congrArg Prod.fst hbind')) rfl
    exact ⟨_, _, hbind, (h.check_iff hcomplete hnames hbind hbind').1 hcheck'⟩
  · rintro ⟨table, info, hbind, hcheck⟩
    have hbind' : a'.bind {} = (.ok (), (a'.bind {}).2) :=
      Prod.ext (hbound.2 (congrArg Prod.fst hbind)) rfl
    exact ⟨_, _, hbind', (h.check_iff hcomplete hnames hbind hbind').2 hcheck⟩

theorem checkedAlike_of_passes (h : a.Reorders a' u u') (hcomplete : a.Complete u)
    (hnames : a.NamesFunctionsOnce u) (hpasses : a.Passes table info)
    (hpasses' : a'.Passes table' info') :
    a.CheckedAlike table table' info info' := by
  obtain ⟨table₀, info₀, hbind, hcheck⟩ := hpasses
  obtain ⟨table₀', info₀', hbind', hcheck'⟩ := hpasses'
  exact h.checkedAlike hcomplete hnames hbind hbind' hcheck hcheck'

/-- All calls of one program have targets if those of the other do. -/
theorem requireTargets_iff (h : a.Reorders a' u u')
    (halike : a.CheckedAlike table table' info info') :
    requireTargets a' info' = .ok () ↔ requireTargets a info = .ok () := by
  rw [requireTargets_eq_ok_iff, requireTargets_eq_ok_iff, halike.callTarget]
  exact forall₃_congr fun id name args => imp_congr_left (h.kind_iff (by simp))

/-- Both programs come to a text or none does, and the texts differ in the order of the blocks. -/
theorem laidOut (h : a.Reorders a' u u') (hprogram : CheckedProgram a u table info)
    (hspread : a.Spread u) (hnames : a.NamesFunctionsOnce u) (htextless : a.Textless)
    (halike : a.CheckedAlike table table' info info') :
    ((∃ text', a'.generate info' table' = .ok text') ↔ ∃ text, a.generate info table = .ok text) ∧
    ∀ text text', a.generate info table = .ok text → a'.generate info' table' = .ok text' →
      ∃ head block, a.LaidOut info table u text head block ∧
        a'.LaidOut info' table' u' text' head block := by
  obtain ⟨functions, functions', hkeys, hkeys', hperm, hkinds, hnodup⟩ :=
    h.exists_functions hspread hnames
  have hmem : ∀ p ∈ functions, p.1 ∈ u.functions := fun p hp => hkeys ▸ List.mem_map_of_mem hp
  have htexts : ∀ p ∈ functions, ∀ code texts, Lowering.codeOf a info table
      (Lowering.labels functions) p = .ok (code, texts) → texts = [] := fun p hp code texts hcode =>
    (Lowering.function_textless htextless hprogram (hmem p hp) (hkinds p hp) hcode).1
  have hgenerate := Lowering.generate_eq_ok_iff h.unit? hkeys hkinds htexts
  have hgenerate' := h.generate_eq_ok_iff hspread halike hkeys hkeys' hperm hkinds hnodup htexts
  refine ⟨?_, fun text text' htext htext' => ?_⟩
  · simp only [hgenerate, hgenerate']
    exact ⟨fun ⟨_, start, hstart, hall, _⟩ => ⟨_, start, hstart, hall, rfl⟩,
      fun ⟨_, start, hstart, hall, _⟩ => ⟨_, start, hstart, hall, rfl⟩⟩
  · obtain ⟨start, hstart, hall, htext⟩ := (hgenerate text).1 htext
    obtain ⟨start', hstart', -, htext'⟩ := (hgenerate' text').1 htext'
    cases hstart.symm.trans hstart'
    have hfunctions : Lowering.functionsIn a u.functions = .ok functions :=
      hkeys ▸ Lowering.functionsIn_of_kinds hkinds
    have hfunctions' : Lowering.functionsIn a' u'.functions = .ok functions' :=
      hkeys' ▸ Lowering.functionsIn_of_kinds fun p hp =>
        (h.kind_iff (by simp)).2 (hkinds p (hperm.mem_iff.1 hp))
    have hblocks : ∀ d ∈ u.functions, ∃ f code, a.kind d = .ok (.function f) ∧
        Lowering.function a info table (Lowering.labels functions) [] (soleLabel f.name) f =
          .ok (.label (soleLabel f.name) :: code, []) ∧
        (Line.label (soleLabel f.name) :: code).mapM Line.render = .ok
          ((Lowering.blockOf a info table (Lowering.labels functions) d).toOption.getD []) := by
      intro d hd
      obtain ⟨p, hp, rfl⟩ := List.mem_map.1 (hkeys ▸ hd)
      obtain ⟨block, hblock⟩ := hall p.1 hd
      obtain ⟨code, texts, hcode, hrendered⟩ := (Lowering.blockOf_eq_ok_iff (hkinds p hp)).1 hblock
      have hlabel := Lowering.lookup_labels hkinds hnodup hp
      simp only [Lowering.codeOf, hlabel, Option.getD_some] at hcode
      obtain ⟨rfl, body, rfl⟩ := Lowering.function_textless htextless hprogram hd
        (hkinds p hp) hcode
      exact ⟨p.2, body, hkinds p hp, hcode, by rw [hrendered, hblock]; rfl⟩
    refine ⟨start.headLines, _, ⟨htext, start.getLast?_headLines, functions, hfunctions, hblocks⟩,
      ⟨htext', start.getLast?_headLines, functions', hfunctions', fun d hd => ?_⟩⟩
    have hd := h.functions.mem_iff.1 hd
    obtain ⟨f, code, hf, hcode, hrendered⟩ := hblocks d hd
    refine ⟨f, code, (h.kind_iff (by simp)).2 hf, ?_, hrendered⟩
    rw [h.function_eq hspread halike (Lowering.lookup_labels_perm hperm hkinds hnodup) hd hf, hcode]

end Reorders

/-- Functions with names of their own. -/
theorem namesFunctionsOnce_of_inj {lo : Nat} (hlayout : a.Layout lo u)
    (h : ∀ i ∈ u.functions, ∀ j ∈ u.functions, ∀ f g, a.kind i = .ok (.function f) →
      a.kind j = .ok (.function g) → f.name = g.name → i = j) : a.NamesFunctionsOnce u := by
  obtain ⟨functions, -, hkeys, hkinds⟩ :=
    Lowering.exists_functionsIn fun d hd => (hlayout.function_tree hd).1
  have hnodup : (functions.map Prod.fst).Nodup := hkeys ▸ hlayout.nodup_functions
  rw [NamesFunctionsOnce, overloads_eq hkeys hkinds, List.map_map]
  refine (List.nodup_map_iff_inj_on (.of_map _ hnodup)).2 fun p hp q hq heq => ?_
  have hmem : ∀ r ∈ functions, r.1 ∈ u.functions := fun r hr => hkeys ▸ List.mem_map_of_mem hr
  exact (List.nodup_map_iff_inj_on (.of_map _ hnodup)).1 hnodup p hp q hq
    (h p.1 (hmem p hp) q.1 (hmem q hq) p.2 q.2 (hkinds p hp) (hkinds q hq) heq)

/-- The order of the functions does not matter. If a program has no texts and its functions have
names of their own, the program that lists them in another order compiles if and only if this one
does. The two texts have the same head, and then the same blocks, one for each function, in the
order in which the program lists the functions. -/
theorem compile_reorder {source : SourceId} {bytes : List UInt8} {functions : List NodeId}
    (hparse : Arena.ofBytes source bytes = .ok a) (hu : a.unit? = some u)
    (hnames : ∀ i ∈ u.functions, ∀ j ∈ u.functions, ∀ f g, a.kind i = .ok (.function f) →
      a.kind j = .ok (.function g) → f.name = g.name → i = j)
    (htextless : ∀ id value, a.kind id ≠ .ok (.text value)) (hperm : functions.Perm u.functions) :
    ((∃ r', compileArena .generate (a.reorder u functions) = .ok r') ↔
      ∃ r, compileArena .generate a = .ok r) ∧
    ∀ r r', compileArena .generate a = .ok r →
      compileArena .generate (a.reorder u functions) = .ok r' →
      ∃ info table text info' table' text' head block,
        r = ⟨a, some info, some table, some text⟩ ∧
        r' = ⟨a.reorder u functions, some info', some table', some text'⟩ ∧
        a.LaidOut info table u text head block ∧
        (a.reorder u functions).LaidOut info' table' { u with functions := functions } text'
        head block := by
  obtain ⟨u', hu', hcomplete⟩ := exists_complete_ofBytes hparse
  cases hu.symm.trans hu'
  have h := reorders_reorder hu hperm
  generalize a.reorder u functions = a' at h ⊢
  have honce := namesFunctionsOnce_of_inj hcomplete.layout hnames
  have hlaidOut : ∀ table info table' info', a.Passes table info → a'.Passes table' info' →
      a.CheckedAlike table table' info info' ∧ CheckedProgram a u table info := by
    intro table info table' info' hpasses hpasses'
    refine ⟨h.checkedAlike_of_passes hcomplete honce hpasses hpasses', ?_⟩
    obtain ⟨table₀, info₀, hbind, hcheck⟩ := hpasses
    have haccepted : Accepted a table info := ⟨source, bytes, table₀, info₀, hparse, hbind, hcheck⟩
    exact haccepted.checked_of_unit hu
  simp only [compiles_iff]
  refine ⟨⟨?_, ?_⟩, ?_⟩
  · rintro ⟨_, table', info', text', hpasses', htargets', htext', -⟩
    obtain ⟨table, info, hpasses⟩ := (h.passes_iff hcomplete honce).1 ⟨table', info', hpasses'⟩
    obtain ⟨halike, hprogram⟩ := hlaidOut table info table' info' hpasses hpasses'
    obtain ⟨text, htext⟩ := (h.laidOut hprogram hcomplete.spread honce htextless halike).1.1
      ⟨text', htext'⟩
    exact ⟨_, table, info, text, hpasses, (h.requireTargets_iff halike).1 htargets', htext, rfl⟩
  · rintro ⟨_, table, info, text, hpasses, htargets, htext, -⟩
    obtain ⟨table', info', hpasses'⟩ := (h.passes_iff hcomplete honce).2 ⟨table, info, hpasses⟩
    obtain ⟨halike, hprogram⟩ := hlaidOut table info table' info' hpasses hpasses'
    obtain ⟨text', htext'⟩ := (h.laidOut hprogram hcomplete.spread honce htextless halike).1.2
      ⟨text, htext⟩
    exact ⟨_, table', info', text', hpasses', (h.requireTargets_iff halike).2 htargets, htext', rfl⟩
  · rintro _ _ ⟨table, info, text, hpasses, -, htext, rfl⟩ ⟨table', info', text', hpasses', -,
      htext', rfl⟩
    obtain ⟨halike, hprogram⟩ := hlaidOut table info table' info' hpasses hpasses'
    obtain ⟨head, block, hlaid, hlaid'⟩ :=
      (h.laidOut hprogram hcomplete.spread honce htextless halike).2 text text' htext htext'
    exact ⟨info, table, text, info', table', text', head, block, rfl, rfl, hlaid, hlaid'⟩

end Arena

/-! ### A program -/

namespace Swapped

/-- A function that calls the one behind it. -/
def words : List String :=
  ["int", "f", "(", "int", "x", ")", "\x7b", "return", "g", "(", "x", ")", ";", "\x7d",
    "int", "g", "(", "int", "y", ")", "\x7b", "return", "y", "+", "1", ";", "\x7d"]

def bytes : List UInt8 := words.flatMap fun w => w.toList.map (fun c => UInt8.ofNat c.toNat) ++ [32]

def arena : Arena := (Arena.ofBytes 2 bytes).toOption.get (by decide +kernel)

def unit : UnitNode := ⟨[], [], [6, 12]⟩

theorem ofBytes_bytes : Arena.ofBytes 2 bytes = .ok arena := ok_get_toOption _

/-- The nodes, and that the program compiles. -/
theorem nodes : arena.unit? = some unit ∧
    arena.kind 6 = .ok (.function ⟨"f", .int, [2], [5]⟩) ∧
    arena.kind 12 = .ok (.function ⟨"g", .int, [7], [11]⟩) ∧ arena.nodes.toList.map (·.kind) =
    [.unit unit, .declaration ⟨"x", .int, false⟩, .var "x", .call "g" [3], .ret (some 4),
      .function ⟨"f", .int, [2], [5]⟩, .declaration ⟨"y", .int, false⟩, .var "y", .int 1,
      .binary .plus 8 9, .ret (some 10), .function ⟨"g", .int, [7], [11]⟩] ∧
    (compileArena .generate arena).toOption.isSome = true := by decide +kernel

attribute [irreducible] arena

/-- A node has one of these kinds. -/
theorem mem_kinds {id : NodeId} {k : NodeKind} (h : arena.kind id = .ok k) :
    k ∈ arena.nodes.toList.map (·.kind) := by
  obtain ⟨span, hnode⟩ := Arena.kind_eq_ok_iff.1 h
  have hmem := Array.mem_of_getElem? (Arena.node?_eq_some_iff.1 (Arena.node_eq_ok_iff.1 hnode)).2
  exact List.mem_map.2 ⟨_, Array.mem_toList_iff.2 hmem, rfl⟩

/-- It compiles with the functions the other way around, to the same blocks. -/
theorem compiles_swapped : (∀ i ∈ unit.functions, ∀ j ∈ unit.functions, ∀ f g,
      arena.kind i = .ok (.function f) → arena.kind j = .ok (.function g) → f.name = g.name →
      i = j) ∧
    (∀ id value, arena.kind id ≠ .ok (.text value)) ∧ [12, 6].Perm unit.functions ∧
    ∃ r r', compileArena .generate arena = .ok r ∧
      compileArena .generate (arena.reorder unit [12, 6]) = .ok r' ∧
      ∃ head f g, r.assembly = some (Assembly.ofLines (head ++ f ++ g)) ∧
        r'.assembly = some (Assembly.ofLines (head ++ g ++ f)) := by
  obtain ⟨hunit, hf, hg, hkinds, hcompiles⟩ := nodes
  have hnames : ∀ i ∈ unit.functions, ∀ j ∈ unit.functions, ∀ f g,
      arena.kind i = .ok (.function f) → arena.kind j = .ok (.function g) → f.name = g.name →
        i = j := by
    intro i hi j hj f g hkf hkg hname
    rcases List.mem_pair.1 hi with rfl | rfl <;> rcases List.mem_pair.1 hj with rfl | rfl
    · rfl
    · cases hf.symm.trans hkf
      cases hg.symm.trans hkg
      simp at hname
    · cases hg.symm.trans hkf
      cases hf.symm.trans hkg
      simp at hname
    · rfl
  have htextless : ∀ id value, arena.kind id ≠ .ok (.text value) := by
    intro id value h
    have hmem := mem_kinds h
    rw [hkinds] at hmem
    simp at hmem
  have hperm : [12, 6].Perm unit.functions := List.Perm.swap 6 12 []
  obtain ⟨hiff, hblocks⟩ := Arena.compile_reorder ofBytes_bytes hunit hnames htextless hperm
  have hr := ok_get_toOption hcompiles
  obtain ⟨r', hr'⟩ := hiff.2 ⟨_, hr⟩
  obtain ⟨info, table, text, info', table', text', head, block, hartifact, hartifact',
    hlaid, hlaid'⟩ :=
    hblocks _ r' hr hr'
  refine ⟨hnames, htextless, hperm, _, r', hr, hr', head, block 6, block 12, ?_, ?_⟩
  · rw [hartifact]
    simp [hlaid.text, unit]
  · rw [hartifact']
    simp [hlaid'.text]

end Swapped

end MiniJ
