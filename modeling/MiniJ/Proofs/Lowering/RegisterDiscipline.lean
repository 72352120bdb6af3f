import MiniJ.Proofs.Lowering.Call
import MiniJ.Proofs.Lowering.Generation
import MiniJ.Proofs.Lowering.Orderly

/-!
# The register discipline

On accepted programs registers are passed on by convention, and the convention is kept: whoever
computes a value takes a free scratch register, whoever uses it releases it, and a statement leaves
exactly the registers of the parameters.

## Main definitions

* `Lowering.KeepsRegisters` — how lowering a function uses registers.

## Main statements

* `Accepted.avoids_generate` — code generation of an accepted program does not break the discipline.
* `Accepted.keepsRegisters` — the functions of an accepted program keep the discipline.
-/
namespace MiniJ

open Gen Outcome

/-! ### Programs -/

namespace Lowering

variable {a : Arena} {table : SymbolTable} {info : SemanticInfo}

theorem avoids_global {out : Assembly} {id : NodeId} :
    Avoids Failure.IsBreach (global a table out id) := by
  refine (a.avoids_node id).lift.bind fun node => ?_
  split
  · exact .pure _
  · refine (table.avoids_sizeOf _).lift.bind fun found => ?_
    split
    · exact .pure _
    · exact .error (fun h => h)

/-- The code of a function of a checked program. -/
theorem avoids_function {u : UnitNode} {d : NodeId} {f : FunctionNode}
    (hprogram : CheckedProgram a u table info) (hd : d ∈ u.functions)
    (hf : a.kind d = .ok (.function f)) {labels : List (NodeId × String)} {texts : List String}
    {label : String} : Avoids Failure.IsBreach (function a info table labels texts label f) := by
  intro e he
  unfold function at he
  cases hlayout : Frame.layout a info table f with
  | error e' =>
    rw [hlayout] at he
    cases he
    exact Frame.avoids_layout e hlayout
  | ok frame =>
    have hlowers : Context.Lowers ⟨a, info, table, labels, frame, label = entryLabel⟩ u f :=
      ⟨hprogram, ⟨d, hd, hf⟩, hlayout⟩
    rw [hlayout, ok_bind] at he
    cases hbody : functionBody label f ⟨a, info, table, labels, frame, label = entryLabel⟩
        { texts := texts } with
    | error e' =>
      rw [hbody] at he
      cases he
      exact orderly_functionBody hlowers label rfl e hbody
    | ok output =>
      rw [hbody] at he
      cases he

end Lowering

theorem Address.avoids_render (a : Address) : Avoids Fault.IsBreach a.render := by
  unfold Address.render
  split
  · exact .ok _
  · split
    · split
      · exact .ok _
      · exact .error (fun h => h)
    · exact .ok _

theorem Line.avoids_render (line : Line) : Avoids Fault.IsBreach line.render := by
  cases line with
  | label name => exact .ok _
  | instruction mnemonic operands =>
    refine Avoids.bind (.mapM fun x => ?_) fun _ => .pure _
    cases x with
    | mem width address => exact address.avoids_render.bind fun _ => .pure _
    | addr address => exact address.avoids_render
    | _ => exact .ok _

/-- Code generation of an accepted program does not break the discipline. -/
theorem Accepted.avoids_generate {a : Arena} {table : SymbolTable} {info : SemanticInfo}
    (h : Accepted a table info) : Avoids Failure.IsBreach (a.generate info table) := by
  obtain ⟨u, hu, hprogram⟩ := h.checkedProgram
  obtain ⟨functions, hfunctions, hkeys, hkinds⟩ := hprogram.exists_functionsIn
  refine Avoids.bind ?_ fun out => (Avoids.bind (.mapM Line.avoids_render) fun _ => .pure _).bind
    (fun _ => .pure _) |>.lift
  unfold Arena.assemble
  rw [hu]
  refine Avoids.bind (.foldlM fun _ _ _ => Lowering.avoids_global) fun out => ?_
  rw [hfunctions, lift_ok, ok_bind]
  refine .foldlM fun out p hp => Avoids.bind ?_ fun _ => .pure _
  exact Lowering.avoids_function hprogram (hkeys ▸ List.mem_map.2 ⟨p, hp, rfl⟩) (hkinds p hp)

namespace Lowering

variable {cx : Context} {u : UnitNode} {f : FunctionNode} {s s' : State} {code : List Line}
  {id : NodeId}

/-! ### Functions -/

/-- Only expressions are computed. -/
theorem role_of_expression {depth : Nat} {r : Register}
    (h : Emits ((atDepth depth).expression id) cx s r code s') :
    ∃ k, cx.arena.kind id = .ok k ∧ k.role = .expression := by
  cases depth with
  | zero => exact (emits_fail.1 h).elim
  | succ depth =>
    obtain ⟨k, hk, hcode⟩ := emits_kind_bind.1 h
    refine ⟨k, hk, ?_⟩
    cases k <;> first | rfl | exact (emits_unsupported.1 hcode).elim

/-- Only expressions are places. -/
theorem role_of_place {depth : Nat} {p : Place}
    (h : Emits ((atDepth depth).place id) cx s p code s') :
    ∃ k, cx.arena.kind id = .ok k ∧ k.role = .expression := by
  cases depth with
  | zero => exact (emits_fail.1 h).elim
  | succ depth =>
    obtain ⟨k, hk, hcode⟩ := emits_kind_bind.1 h
    refine ⟨k, hk, ?_⟩
    cases k <;> first | rfl | exact (emits_unsupported.1 hcode).elim

/-- How lowering a function uses registers. -/
structure KeepsRegisters (cx : Context) (f : FunctionNode) : Prop where
  /-- An expression takes a free scratch register for its value. -/
  expression : ∀ {id s r code s'}, cx.InBody f id →
    Emits ((ofArena cx.arena).expression id) cx s r code s' → Claims [r] s s'
  /-- A place takes a register for its address, if it needs one. -/
  place : ∀ {id s p code s'}, cx.InBody f id →
    Emits ((ofArena cx.arena).place id) cx s p code s' → Claims p.temp.toList s s'
  /-- A call takes a register for its result, if it has one. -/
  call : ∀ {id name args s result code s'}, cx.InBody f id →
    cx.arena.kind id = .ok (.call name args) →
    Emits (callNode (ofArena cx.arena) id name args) cx s result code s' →
    Claims result.toList s s'
  /-- A statement releases whatever it takes. -/
  statement : ∀ {depth id s code s'}, cx.InBody f id →
    Emits (statement (ofArena cx.arena) depth id) cx s () code s' → s'.registers = s.registers
  /-- The registers of the parameters are claimed in any order. -/
  parameters : ∀ {rs : List Register} {s}, rs.Perm cx.frame.parameterRegisters →
    s.registers.live = [] → ∃ t, Emits (rs.forM claim) cx s () [] t ∧
      ∀ q, q ∈ t.registers.live ↔ q ∈ cx.frame.parameterRegisters
  /-- A function ends with the registers of its parameters. -/
  function : ∀ {label s code s'}, s.registers.live = [] →
    Emits (functionBody label f) cx s () code s' →
    ∀ q, q ∈ s'.registers.live ↔ q ∈ cx.frame.parameterRegisters
  /-- No register is claimed while in use or released while free. -/
  orderly : ∀ {label s}, s.registers.live = [] → Orderly (functionBody label f) cx s

theorem KeepsRegisters.of_lowers (hlowers : cx.Lowers u f) : KeepsRegisters cx f := by
  have hprogram := hlowers.program
  have hdisciplined : Disciplined (ofArena cx.arena) cx u := disciplined_atDepth hprogram _
  obtain ⟨fid, hfid, hf⟩ := hlowers.member
  have hbody := (hprogram.typed.functions fid hfid f hf).body
  have htyped : ∀ {id k}, cx.InBody f id → cx.arena.kind id = .ok k → k.role = .expression →
      ∃ ty, cx.arena.Typed u cx.table cx.info id ty := by
    rintro id k ⟨r, hr, hbelow⟩ hk hrole
    exact hlowers.typed hr hbelow hk hrole
  obtain ⟨taken, -, hsound, -⟩ := hlowers.frame_sound
  obtain ⟨hnodup, harguments⟩ := hsound.parameterRegisters
  refine ⟨?_, ?_, ?_, ?_, ?_, ?_, fun hfree => orderly_functionBody hlowers _ hfree⟩
  · intro id s r code s' hin h
    obtain ⟨k, hk, hrole⟩ := role_of_expression h
    obtain ⟨ty, hty⟩ := htyped hin hk hrole
    exact hdisciplined.expression hty h
  · intro id s p code s' hin h
    obtain ⟨k, hk, hrole⟩ := role_of_place h
    obtain ⟨ty, hty⟩ := htyped hin hk hrole
    exact hdisciplined.place hty h
  · intro id name args s result code s' hin hk h
    obtain ⟨ty, hty⟩ := htyped hin hk rfl
    exact (callShape h).claims hprogram hdisciplined hty hk
  · rintro depth id s code s' ⟨r, hr, hbelow⟩ h
    exact (balanced_of_annotated hprogram hdisciplined
      (Arena.Annotated.below hbelow (.inl (hbody r hr))) h).registers
  · intro rs s hperm hfree
    obtain ⟨t, ht, hlive⟩ := exists_forM_claim cx (s := s) (hperm.nodup_iff.2 hnodup)
      (fun r hr => Register.mem_tracked_of_arguments (harguments r (hperm.mem_iff.1 hr)))
      (by simp [hfree])
    exact ⟨t, ht, fun q => by simp [hlive, hfree, hperm.mem_iff]⟩
  · intro label s code s' hfree h q
    obtain ⟨claimed, copied, lowered, ends⟩ := functionShape h
    have hbalanced := balanced_forM (fun r hr _ _ _ hr' =>
      balanced_statement hprogram hdisciplined (hbody r hr) hr') lowered
    rw [hbalanced.registers, (emits_forM_claim claimed).2.2]
    simp [hfree]

end Lowering

/-- The functions of an accepted program keep the register discipline, and its code generation never
claims a register that is in use and never releases one that is free. -/
theorem Accepted.keepsRegisters {a : Arena} {table : SymbolTable} {info : SemanticInfo}
    (h : Accepted a table info) : ∃ u, a.unit? = some u ∧
      (∀ d ∈ u.functions, ∀ f, a.kind d = .ok (.function f) → ∀ labels frame isEntry,
        Frame.layout a info table f = .ok frame →
        Lowering.KeepsRegisters ⟨a, info, table, labels, frame, isEntry⟩ f) ∧
      ∀ e, a.generate info table = .error e → ¬e.IsBreach := by
  obtain ⟨u, hu, hprogram⟩ := h.checkedProgram
  exact ⟨u, hu, fun d hd f hf labels frame isEntry hframe =>
    .of_lowers ⟨hprogram, ⟨d, hd, hf⟩, hframe⟩, h.avoids_generate⟩

theorem Sample.function_keepsRegisters : Lowering.KeepsRegisters context function := by
  obtain ⟨u, hu, hfunctions, -⟩ := accepted.keepsRegisters
  cases unit?_arena.symm.trans hu
  exact hfunctions 30 function_mem function kind_function _ frame _ layout_function

end MiniJ
