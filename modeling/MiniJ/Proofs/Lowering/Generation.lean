import MiniJ.Proofs.Layout.Limit
import MiniJ.Proofs.Lowering.Body
import MiniJ.Proofs.Lowering.FunctionShape

/-!
# Checked programs have code

Code generation succeeds on every accepted program whose records do not contain themselves and
whose storage can be addressed, unless it meets one of its known gaps.

## Main statements

* `Lowering.safe_functionBody` — functions are safe to lower.
* `Accepted.generate_cases` — what code generation gives for an accepted program.
-/
namespace MiniJ

open Outcome

namespace Lowering

open Gen

variable {cx : Context} {u : UnitNode} {f : FunctionNode} {s s' : State}

/-! ### Prologue -/

theorem safe_homeParameter {p : HomedParameter} {size : Nat} (h : Frame.HomesTo size p)
    (hsmall : size < 2147483648) : Safe (homeParameter p) cx s := by
  obtain ⟨used, hused, haddress⟩ := h
  have hsized : (Operand.sized p.width p.register).Writable := by
    cases p.width <;> trivial
  have hwritable : p.address.Writable := by
    rw [haddress, SymbolTable.displacement_of_lt (by omega)]
    show -2147483648 < -(used : Int)
    omega
  exact safe_emit (List.forall_mem_cons.2 ⟨hwritable, List.forall_mem_singleton.2 hsized⟩)

/-- A record is copied while only parameters are in registers. -/
theorem safe_copyParameter {p : CopiedParameter} (hfits : cx.Fits u f)
    (h : Frame.CopiesTo cx.table cx.frame.size p)
    (hlive : ∀ r ∈ s.registers.live, r ∈ Register.arguments) :
    Safe (copyParameter p) cx s := by
  obtain ⟨⟨index, hsource⟩, used, n, haddress, hn, hle, hused, -⟩ := h
  have hsmall := hfits.small
  have hfree : ∀ {r}, r ∉ Register.arguments → r ∉ s.registers.live := fun hr hmem =>
    hr (hlive _ hmem)
  -- the two registers a copy works with are free
  obtain ⟨t, ht, htlive⟩ := exists_claim cx (r := .r11) (s := s) (by decide)
    (hfree (by decide))
  obtain ⟨t', ht', htlive'⟩ := exists_claim cx (r := .rax) (s := t) (by decide) (by
    rw [htlive]
    rintro (heq | hmem)
    · cases heq
    · exact hfree (by decide) hmem)
  have hcode : ∀ source : Operand, source.Writable → Safe (do
      claim .r11
      claim .rax
      emit .mov [.reg .r11, source]
      copyRecord p.record (.register .r11) p.address .rax p.param
      release .rax
      release .r11) cx s := by
    intro source hwritable
    refine safe_bind_of_emits ht (by simp) (safe_bind_of_emits ht' (by simp) ?_)
    refine safe_emit_bind (by simpa [Operand.Writable] using hwritable) ?_
    have hcopy : Safe (copyRecord p.record (.register .r11) p.address .rax p.param) cx t' := by
      refine safe_context_bind (safe_copyFields hfits.compact (Nat.le_refl _) hn writable_zero ?_ ?_
        ?_ (by omega))
      · show (0 : Int) + n < _
        omega
      · rw [haddress, SymbolTable.displacement_of_lt (by omega)]
        show -2147483648 < -(used : Int)
        omega
      · rw [haddress, SymbolTable.displacement_of_lt (by omega)]
        show -(used : Int) + n < _
        omega
    refine safe_bind hcopy fun _ _ t₁ ht₁ => ?_
    obtain rfl := (emits_copyFields (emits_context_bind.1 ht₁)).1
    refine safe_bind (safe_release ((htlive' _).2 (.inl rfl))) fun _ _ t₂ ht₂ => safe_release ?_
    obtain ⟨g, hg, -, rfl⟩ := emits_release.1 ht₂
    rcases RegisterFile.release_eq_ok hg with ⟨-, rfl⟩ | ⟨-, hrest⟩
    · exact (htlive' _).2 (.inr ((htlive _).2 (.inl rfl)))
    · exact (hrest _).2 ⟨by simp, (htlive' _).2 (.inr ((htlive _).2 (.inl rfl)))⟩
  unfold copyParameter
  rw [hsource]
  rcases Frame.incoming_cases index with ⟨r, -, hin⟩ | ⟨-, hin⟩
  · rw [hin]
    exact hcode _ trivial
  · rw [hin]
    refine hcode _ ?_
    show -2147483648 < _
    simp only [Address.frame]
    omega

theorem safe_copyParameters {ps : List CopiedParameter} (hfits : cx.Fits u f)
    (h : ∀ p ∈ ps, Frame.CopiesTo cx.table cx.frame.size p)
    (hlive : ∀ r ∈ s.registers.live, r ∈ Register.arguments) :
    Safe (ps.forM copyParameter) cx s := by
  induction ps generalizing s with
  | nil => exact safe_pure
  | cons p ps ih =>
    refine safe_bind (safe_copyParameter hfits (h p (by simp)) hlive) fun _ _ t ht => ?_
    obtain ⟨-, rfl⟩ := copyShape ht
    exact ih (fun q hq => h q (by simp [hq])) hlive

/-- A prologue with an optional instruction left out or not. -/
theorem safe_emit_if {β : Type} {c : Prop} [Decidable c] {mnemonic : Mnemonic}
    {operands : List Operand} {g : Unit → Gen β} (h : ∀ x ∈ operands, x.Writable)
    (hg : Safe (g ()) cx s) : Safe (if c then emit mnemonic operands >>= g else g ()) cx s := by
  split
  · exact safe_emit_bind h hg
  · exact hg

theorem safe_prologue (hfits : cx.Fits u f)
    (hlive : ∀ r ∈ s.registers.live, r ∈ Register.arguments) :
    Safe prologue cx s := by
  obtain ⟨taken, -, hsound, -⟩ := hfits.frame_sound
  refine safe_context_bind (safe_emit_bind (by simp [Operand.Writable])
    (safe_emit_bind (by simp [Operand.Writable]) (safe_emit_if (by simp [Operand.Writable])
      (safe_emit_if (by simp [Operand.Writable]) ?_))))
  refine safe_bind (safe_forM fun p hp s => safe_homeParameter (hsound.moved p hp) hfits.small)
    fun _ _ t ht => safe_copyParameters hfits hsound.copied ?_
  obtain ⟨-, rfl⟩ := emits_homeParameters.1 ht
  exact hlive

/-- Functions of a checked program are safe to lower. -/
theorem safe_functionBody (hfits : cx.Fits u f) (label : String) (hfree : s.registers.live = []) :
    Safe (functionBody label f) cx s := by
  obtain ⟨taken, -, hsound, -⟩ := hfits.frame_sound
  obtain ⟨fid, hfid, hf⟩ := hfits.member
  obtain ⟨-, start, htree⟩ := hfits.program.layout.function_tree hfid
  obtain ⟨hnodup, harguments⟩ := hsound.parameterRegisters
  have hbody : ∀ r ∈ f.body, cx.arena.Within cx.arena.depthLimit r := by
    intro r hr
    obtain ⟨lo, hlo, -⟩ := htree.child hf (List.mem_append_right _ hr)
    exact hlo.within
  obtain ⟨t, ht, hlive⟩ := exists_forM_claim cx (s := s) hnodup
    (fun r hr => Register.mem_tracked_of_arguments (harguments r hr)) (by simp [hfree])
  refine safe_context_bind (safe_bind_of_emits ht (by simp) ?_)
  refine safe_bind safe_placeLabel fun _ _ t₁ ht₁ => ?_
  obtain ⟨-, rfl⟩ := emits_placeLabel.1 ht₁
  have hparameters : ∀ r ∈ t₁.registers.live, r ∈ Register.arguments := by
    intro r hr
    rcases (hlive r).1 hr with hr | hr
    · exact harguments r hr
    · rw [hfree] at hr
      cases hr
  refine safe_bind (safe_prologue hfits hparameters) fun _ _ _ _ => ?_
  refine safe_bind (safe_forM fun r hr s => ?_) fun _ _ t₂ _ => ?_
  · exact safe_statement (prepared_atDepth hfits _) (Nat.le_refl _) ⟨r, hr, .self r⟩ (hbody r hr)
      ((hfits.program.typed.functions fid hfid f hf).body r hr)
  · have hends : ∃ b, Emits (endsWithReturn f.body) cx t₂ b [] t₂ := by
      unfold endsWithReturn
      cases hlast : f.body.getLast? with
      | none => exact ⟨_, emits_pure.2 ⟨rfl, rfl, rfl⟩⟩
      | some last =>
        obtain ⟨k, hk⟩ := (hbody last (List.mem_of_getLast? hlast)).kind
        exact ⟨_, emits_kind_bind.2 ⟨k, hk, emits_pure.2 ⟨rfl, rfl, rfl⟩⟩⟩
    obtain ⟨b, hb⟩ := hends
    refine safe_bind_of_emits hb (by simp) ?_
    cases b with
    | true => exact safe_pure
    | false =>
      split
      · split
        · exact safe_exit trivial
        · exact safe_epilogue
      · exact safe_pure

/-! ### Labels -/

variable {a : Arena} {table : SymbolTable} {info : SemanticInfo}

theorem keys_labelsFrom {all earlier : List String} {functions : List (NodeId × FunctionNode)} :
    (labelsFrom all earlier functions).map Prod.fst = functions.map Prod.fst := by
  induction functions generalizing earlier with
  | nil => rfl
  | cons p rest ih => rw [labelsFrom, List.map_cons, List.map_cons, ih]

theorem mem_labelsFrom {all earlier : List String} {functions : List (NodeId × FunctionNode)}
    {id : Nat} {label : String} (h : (id, label) ∈ labelsFrom all earlier functions) :
    ∃ g before, (id, g) ∈ functions ∧ label = labelOf all before g.name := by
  induction functions generalizing earlier with
  | nil => cases h
  | cons p rest ih =>
    obtain ⟨d, g⟩ := p
    rcases List.mem_cons.1 h with heq | hmem
    · cases heq
      exact ⟨g, earlier, by simp, rfl⟩
    · obtain ⟨g', before, hg', hlabel⟩ := ih hmem
      exact ⟨g', before, by simp [hg'], hlabel⟩

/-- Only `main` has the label of the entry function. -/
theorem name_of_entryLabel {all earlier : List String} {name : String}
    (h : labelOf all earlier name = entryLabel) : name = "main" := by
  have huser : ∀ rest : String, userSymbol name ++ rest ≠ entryLabel := by
    intro rest heq
    have hchars := congrArg String.toList heq
    simp only [userSymbol, entryLabel, String.toList_append] at hchars
    exact absurd (congrArg List.head? hchars) (by simp)
  unfold labelOf at h
  split at h
  · next hmain => exact hmain
  · split at h
    · exact absurd (by simpa using h) (huser "")
    · refine absurd ?_ (huser ("@" ++ toString (earlier.count name)))
      rw [← String.append_assoc]
      exact h

/-- The functions of a program are found. -/
theorem exists_functionsIn {ids : List NodeId}
    (h : ∀ d ∈ ids, ∃ g, a.kind d = .ok (.function g)) : ∃ functions,
      functionsIn a ids = .ok functions ∧ functions.map Prod.fst = ids ∧
      ∀ p ∈ functions, a.kind p.1 = .ok (.function p.2) := by
  induction ids with
  | nil => exact ⟨[], rfl, rfl, by simp⟩
  | cons d ids ih =>
    obtain ⟨g, hg⟩ := h d (by simp)
    obtain ⟨functions, hfunctions, hkeys, hkinds⟩ := ih fun e he => h e (by simp [he])
    simp only [functionsIn, bind_eq_ok, pure_eq_ok] at hfunctions
    obtain ⟨found, hfound, rfl⟩ := hfunctions
    refine ⟨(d, g) :: found.filterMap fun f => f, ?_, by rw [List.map_cons, hkeys], ?_⟩
    · simp only [functionsIn, bind_eq_ok, pure_eq_ok]
      refine ⟨some (d, g) :: found, ?_, rfl⟩
      rw [List.mapM_cons, Arena.function?_eq_ok hg, ok_bind, hfound]
      rfl
    · exact List.forall_mem_cons.2 ⟨hg, hkinds⟩

/-- A key of a list of pairs is found. -/
theorem exists_lookup {pairs : List (NodeId × String)} {d : NodeId}
    (h : d ∈ pairs.map Prod.fst) : ∃ label, pairs.lookup d = some label ∧ (d, label) ∈ pairs := by
  induction pairs with
  | nil => cases h
  | cons p rest ih =>
    obtain ⟨key, label⟩ := p
    by_cases hkey : d = key
    · subst hkey
      exact ⟨label, by simp, by simp⟩
    · obtain ⟨label', hlookup, hmem⟩ := ih ((List.mem_cons.1 h).resolve_left hkey)
      exact ⟨label', by rw [List.lookup_cons, beq_false_of_ne hkey, hlookup], by simp [hmem]⟩

/-- A function of the program has a label, and only `main` has the one of the entry function. -/
theorem exists_label {functions : List (NodeId × FunctionNode)} {d : NodeId}
    (h : d ∈ functions.map Prod.fst) : ∃ label, (labels functions).lookup d = some label ∧
      (label = entryLabel → ∃ g, (d, g) ∈ functions ∧ g.name = "main") := by
  have hkeys : d ∈ (labels functions).map Prod.fst := by
    rw [labels, List.map_reverse, List.mem_reverse, keys_labelsFrom]
    exact h
  obtain ⟨label, hlookup, hmem⟩ := exists_lookup hkeys
  obtain ⟨g, before, hg, rfl⟩ := mem_labelsFrom (List.mem_reverse.1 hmem)
  exact ⟨_, hlookup, fun hentry => ⟨g, hg, name_of_entryLabel hentry⟩⟩

/-! ### Programs -/

/-- Every line of the code can be written out. -/
def CodeWritable (out : Assembly) : Prop := ∀ line ∈ out.code, line.Writable

/-- Globals of a checked program have storage. -/
theorem exists_global {u : UnitNode} {g : NodeId} {out : Assembly}
    (hprogram : CheckedProgram a u table info) (hcompact : table.Compact) (hg : g ∈ u.globals) :
    ∃ out', global a table out g = .ok out' ∧ out'.code = out.code := by
  obtain ⟨⟨b, hb⟩, -⟩ := hprogram.layout.globals g hg
  obtain ⟨span, hnode⟩ := Arena.kind_eq_ok_iff.1 hb
  refine ⟨out.reserve (userSymbol b.name) (table.bytes b.ty), ?_, rfl⟩
  have hsize := hcompact.sizeOf_eq (hprogram.storable_global hg hb)
  refine bind_eq_ok.2 ⟨_, lift_eq_ok.2 hnode, ?_⟩
  exact bind_eq_ok.2 ⟨_, lift_eq_ok.2 hsize, rfl⟩

/-- A function of a checked program is added unless lowering meets one of its gaps. -/
theorem settles_addFunction {u : UnitNode} {functions : List (NodeId × FunctionNode)}
    {p : NodeId × FunctionNode} {out : Assembly} (hprogram : CheckedProgram a u table info)
    (hcompact : table.Compact) (hkeys : functions.map Prod.fst = u.functions)
    (hkinds : ∀ p ∈ functions, a.kind p.1 = .ok (.function p.2)) (hp : p ∈ functions)
    (hframe : Frame.bytesNeeded a info table p.2 < 2147483648) (hout : CodeWritable out) :
    Settles (addFunction a info table (labels functions) out p) CodeWritable Failure.IsGap := by
  have hmem : ∀ q ∈ functions, q.1 ∈ u.functions := fun q hq =>
    hkeys ▸ List.mem_map.2 ⟨q, hq, rfl⟩
  obtain ⟨frame, hlayout, hsize⟩ :=
    Frame.exists_layout hprogram hcompact (hmem p hp) (hkinds p hp) hframe
  obtain ⟨label, hlabel, hentry⟩ := exists_label (List.mem_map.2 ⟨p, hp, rfl⟩)
  have hfits : Context.Fits ⟨a, info, table, labels functions, frame, decide (label = entryLabel)⟩
      u p.2 := by
    refine ⟨⟨hprogram, ⟨p.1, hmem p hp, hkinds p hp⟩, hlayout⟩, hcompact, hsize ▸ hframe, ?_, ?_⟩
    · intro d hd
      obtain ⟨label', hlabel', -⟩ := exists_label (hkeys ▸ hd)
      exact ⟨label', hlabel'⟩
    · intro hisEntry
      obtain ⟨g, hg, hname⟩ := hentry (of_decide_eq_true hisEntry)
      cases Except.ok.inj ((hkinds _ hg).symm.trans (hkinds p hp))
      exact (hprogram.bound.main p.1 (hmem p hp) p.2 (hkinds p hp) hname).1
  have hsafe := safe_functionBody (s := { texts := out.texts }) hfits label rfl
  have hadd : addFunction a info table (labels functions) out p =
      (functionBody label p.2 ⟨a, info, table, labels functions, frame, decide (label = entryLabel)⟩
        { texts := out.texts }).map fun output =>
          { out with code := out.code ++ output.code, texts := output.state.texts } := by
    simp only [addFunction, Lowering.function, hlayout, hlabel, Option.getD_some, ok_bind]
    cases functionBody label p.2 ⟨a, info, table, labels functions, frame,
      decide (label = entryLabel)⟩ { texts := out.texts } <;> rfl
  rw [hadd]
  cases hbody : functionBody label p.2 ⟨a, info, table, labels functions, frame,
      decide (label = entryLabel)⟩ { texts := out.texts } with
  | error e => exact hsafe.failure e hbody
  | ok output =>
    intro line hline
    rcases List.mem_append.1 hline with hline | hline
    · exact hout line hline
    · exact hsafe.code output.value output.code output.state hbody line hline

end Lowering

/-- Records of a checked program are compact if none contains itself and all of them are small. -/
theorem CheckedProgram.compact {a : Arena} {u : UnitNode} {table : SymbolTable}
    {info : SemanticInfo} (h : CheckedProgram a u table info)
    (hacyclic : ∀ name, ¬Relation.TransGen table.Contains name name)
    (hrecords : ∀ name fields, table.lookupRecord name = .ok (some fields) →
      table.bytes (.record name) < 2147483648) : table.Compact :=
  ⟨fun _ _ hfields _ hf => h.storable_field hfields hf, hacyclic, hrecords⟩

/-- The functions of a checked program. -/
theorem CheckedProgram.exists_functionsIn {a : Arena} {u : UnitNode} {table : SymbolTable}
    {info : SemanticInfo} (h : CheckedProgram a u table info) : ∃ functions,
      Lowering.functionsIn a u.functions = .ok functions ∧
      functions.map Prod.fst = u.functions ∧
      ∀ p ∈ functions, a.kind p.1 = .ok (.function p.2) :=
  Lowering.exists_functionsIn fun _ hd => (h.layout.function_tree hd).1

/-- Code that can be written out is written out. -/
theorem Assembly.exists_render {out : Assembly} (h : Lowering.CodeWritable out) :
    ∃ text, out.render = .ok text := by
  obtain ⟨code, hcode⟩ := exists_mapM fun line hline => (h line hline).render
  exact ⟨_, bind_eq_ok.2 ⟨_, bind_eq_ok.2 ⟨code, hcode, rfl⟩, rfl⟩⟩

/-- Code generation for a checked program with small storage gives a text or meets a known gap. -/
theorem CheckedProgram.settles_generate {a : Arena} {u : UnitNode} {table : SymbolTable}
    {info : SemanticInfo} (h : CheckedProgram a u table info) (hu : a.unit? = some u)
    (hcompact : table.Compact)
    (hframes : ∀ d ∈ u.functions, ∀ f, a.kind d = .ok (.function f) →
      Frame.bytesNeeded a info table f < 2147483648) :
    Settles (a.generate info table) (fun _ => True) Failure.IsGap := by
  obtain ⟨functions, hfunctions, hkeys, hkinds⟩ := h.exists_functionsIn
  obtain ⟨out, hout, hcode⟩ : ∃ out, u.globals.foldlM (Lowering.global a table) Lowering.header =
      .ok out ∧ out.code = [] := by
    refine exists_foldlM (P := fun out : Assembly => out.code = []) (fun b g hg hb => ?_) rfl
    obtain ⟨out', hout', hsame⟩ := Lowering.exists_global h hcompact hg
    exact ⟨out', hout', hsame.trans hb⟩
  have hsettles : Settles (functions.foldlM
      (Lowering.addFunction a info table (Lowering.labels functions)) out)
      Lowering.CodeWritable Failure.IsGap := by
    refine settles_foldlM (fun b p hp hb => ?_) (by simp [Lowering.CodeWritable, hcode])
    exact Lowering.settles_addFunction h hcompact hkeys hkinds hp
      (hframes p.1 (hkeys ▸ List.mem_map.2 ⟨p, hp, rfl⟩) p.2 (hkinds p hp)) hb
  have hassemble : a.assemble info table =
      functions.foldlM (Lowering.addFunction a info table (Lowering.labels functions)) out := by
    simp only [Arena.assemble, hu, hout, hfunctions, ok_bind, lift_ok]
  rw [Arena.generate, hassemble]
  cases hfold : functions.foldlM (Lowering.addFunction a info table (Lowering.labels functions))
    out with
  | error e => rwa [hfold] at hsettles
  | ok out' =>
    rw [hfold] at hsettles
    obtain ⟨text, htext⟩ := Assembly.exists_render hsettles
    rw [ok_bind, htext]
    trivial

/-- Code generation makes progress on every accepted program whose records do not contain themselves
and whose storage stays below the limit of signed displacements: it gives a text, or fails because
registers run out, because an operator has no code for texts, or because a result is a record. -/
theorem Accepted.generate_cases {a : Arena} {table : SymbolTable} {info : SemanticInfo}
    (h : Accepted a table info) (hacyclic : ∀ name, ¬Relation.TransGen table.Contains name name)
    (hrecords : ∀ name fields, table.lookupRecord name = .ok (some fields) →
      table.bytes (.record name) < 2147483648)
    (hframes : ∀ u, a.unit? = some u → ∀ d ∈ u.functions, ∀ f, a.kind d = .ok (.function f) →
      Frame.bytesNeeded a info table f < 2147483648) :
    (∃ text, a.generate info table = .ok text) ∨
      ∃ e, a.generate info table = .error (.reported e) ∧ e.IsGap := by
  obtain ⟨u, hu, hprogram⟩ := h.checkedProgram
  have hsettles := hprogram.settles_generate hu (hprogram.compact hacyclic hrecords) (hframes u hu)
  cases hgenerate : a.generate info table with
  | ok text => exact .inl ⟨text, rfl⟩
  | error e =>
    rw [hgenerate] at hsettles
    cases e with
    | fault x => cases hsettles
    | reported e => exact .inr ⟨e, rfl, hsettles⟩

/-! ### A program with records -/

namespace Hollow

/-- A record without fields, inside of another one and as a local. -/
def words : List String :=
  ["record", "E", "\x7b", "\x7d",
    "record", "P", "\x7b", "bool", "b", ";", "E", "e", ";", "int", "i", ";", "\x7d",
    "void", "g", "(", "E", "e", ",", "P", "p", ")", "\x7b", "\x7d",
    "void", "f", "(", ")", "\x7b", "E", "e", ";", "P", "p", ";", "g", "(", "e", ",", "p", ")", ";",
    "\x7d"]

def program : Arena × SymbolTable × SemanticInfo :=
  (accept? 2 (spaced words)).get (by decide +kernel)

theorem accept?_words : accept? 2 (spaced words) = some program := by
  rw [program, Option.some_get]

attribute [irreducible] program

theorem accepted : Accepted program.1 program.2.1 program.2.2 :=
  accepted_of_accept? accept?_words

def callee : FunctionNode := ⟨"g", .void, [7, 8], []⟩

def caller : FunctionNode := ⟨"f", .void, [], [11, 13, 17]⟩

/-- What the program holds. The empty record lies right at the frame pointer of the caller. -/
theorem facts : (program.1.unit?.map UnitNode.functions = some [9, 18] ∧
      program.1.kind 9 = .ok (.function callee) ∧ program.1.kind 18 = .ok (.function caller) ∧
      Frame.bytesNeeded program.1 program.2.2 program.2.1 callee = 16 ∧
      Frame.bytesNeeded program.1 program.2.2 program.2.1 caller = 16) ∧
    (Frame.layout program.1 program.2.2 program.2.1 caller).toOption.map
      (fun g => (g.slot? 10).map Slot.storage) = some (some (.frame 0)) ∧
    program.2.1.globalNames = ["f", "g", "P", "E"] ∧
    program.2.1.lookupRecord "f" = .ok none ∧ program.2.1.lookupRecord "g" = .ok none ∧
    program.2.1.lookupRecord "P" = .ok (some [⟨"b", .bool⟩, ⟨"e", .record "E"⟩, ⟨"i", .int⟩]) ∧
    program.2.1.lookupRecord "E" = .ok (some []) ∧
    program.2.1.bytes (.record "P") = 12 ∧ program.2.1.bytes (.record "E") = 0 := by
  decide +kernel

theorem lookupRecord_cases {name : String} {fields : List Field}
    (h : program.2.1.lookupRecord name = .ok (some fields)) :
    name = "P" ∧ fields = [⟨"b", .bool⟩, ⟨"e", .record "E"⟩, ⟨"i", .int⟩] ∨
      name = "E" ∧ fields = [] := by
  obtain ⟨-, -, hnames, hf, hg, hP, hE, -⟩ := facts
  have hmem := SymbolTable.mem_globalNames h
  rw [hnames] at hmem
  simp only [List.mem_cons, List.not_mem_nil, or_false] at hmem
  rcases hmem with rfl | rfl | rfl | rfl
  · cases hf.symm.trans h
  · cases hg.symm.trans h
  · cases hP.symm.trans h
    exact .inl ⟨rfl, rfl⟩
  · cases hE.symm.trans h
    exact .inr ⟨rfl, rfl⟩

theorem acyclic (name : String) : ¬Relation.TransGen program.2.1.Contains name name := by
  refine SymbolTable.acyclic_of_rank (fun name => if name = "P" then 1 else 0) ?_ name
  rintro outer inner ⟨fields, hfields, f, hf, hty⟩
  rcases lookupRecord_cases hfields with ⟨rfl, rfl⟩ | ⟨rfl, rfl⟩
  · simp only [List.mem_cons, List.not_mem_nil, or_false] at hf
    rcases hf with rfl | rfl | rfl
    · cases hty
    · cases hty
      decide
    · cases hty
  · cases hf

theorem small_records (name : String) (fields : List Field)
    (h : program.2.1.lookupRecord name = .ok (some fields)) :
    program.2.1.bytes (.record name) < 2147483648 := by
  obtain ⟨-, -, -, -, -, -, -, hP, hE⟩ := facts
  rcases lookupRecord_cases h with ⟨rfl, -⟩ | ⟨rfl, -⟩
  · rw [hP]
    decide
  · rw [hE]
    decide

theorem small_frames (u : UnitNode) (hu : program.1.unit? = some u) (d : NodeId)
    (hd : d ∈ u.functions) (f : FunctionNode) (hf : program.1.kind d = .ok (.function f)) :
    Frame.bytesNeeded program.1 program.2.2 program.2.1 f < 2147483648 := by
  obtain ⟨⟨hfunctions, hcallee, hcaller, hneeded, hneeded'⟩, -⟩ := facts
  obtain ⟨u', hu', hmembers⟩ := Option.map_eq_some_iff.1 hfunctions
  cases hu.symm.trans hu'
  rw [hmembers] at hd
  simp only [List.mem_cons, List.not_mem_nil, or_false] at hd
  rcases hd with rfl | rfl
  · cases hcallee.symm.trans hf
    rw [hneeded]
    decide
  · cases hcaller.symm.trans hf
    rw [hneeded']
    decide

/-- One record of the program lies inside of the other, and the program has code or meets a gap. -/
theorem generates : program.2.1.Contains "P" "E" ∧
    ((∃ text, program.1.generate program.2.2 program.2.1 = .ok text) ∨
      ∃ e, program.1.generate program.2.2 program.2.1 = .error (.reported e) ∧ e.IsGap) := by
  obtain ⟨-, -, -, -, -, hP, -⟩ := facts
  exact ⟨⟨_, hP, ⟨"e", .record "E"⟩, by simp, rfl⟩,
    accepted.generate_cases acyclic small_records small_frames⟩

end Hollow

end MiniJ
