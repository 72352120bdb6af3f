import MiniJ.Proofs.Lowering.RegisterDiscipline
import MiniJ.Proofs.Typing.Located

/-!
# Where errors of code generation are

Code generation reports errors at nodes of the program, unless it claims a register that is in use,
which does not happen for accepted programs. The types in its messages are types of the program.

## Main definitions

* `Gen.Reports` — a part of code generation reports only errors at a byte of the program.

## Main statements

* `Accepted.located_generate` — the error of an accepted program without code.
-/
namespace MiniJ

open Text Outcome

variable {source : SourceId} {size : Nat}

/-! ### Messages -/

/-- A construct that names nothing with a newline. -/
def Unsupported.OneLine : Unsupported → Prop
  | globalStorage name ty | variableStorage name ty => IsLine name ∧ ty.OneLine
  | typeStorage ty => ty.OneLine
  | recordLayout name | unresolvedCall name => IsLine name
  | _ => True

theorem Unsupported.OneLine.isLine {what : Unsupported} (h : what.OneLine) :
    IsLine what.describe := by
  unfold describe
  cases what with
  | globalStorage name ty | variableStorage name ty =>
    simp only [isLine_append]
    refine ⟨⟨⟨?_, h.1⟩, ?_⟩, h.2⟩ <;> exact isLine_ofList (by decide)
  | typeStorage ty =>
    simp only [isLine_append]
    exact ⟨isLine_ofList (by decide), h⟩
  | recordLayout name | unresolvedCall name =>
    simp only [isLine_append]
    refine ⟨⟨?_, h⟩, ?_⟩ <;> exact isLine_ofList (by decide)
  | textOperator op =>
    simp only [isLine_append]
    refine ⟨⟨?_, op.isLine_symbol⟩, ?_⟩ <;> exact isLine_ofList (by decide)
  | _ => exact isLine_ofList (by decide)

abbrev CodegenError.Located (source : SourceId) (size : Nat) (e : CodegenError) : Prop :=
  MiniJ.Located source size e.span e.message

/-- A failure that is at a byte of the program if it is reported, unless it is about a register. -/
def Failure.Placed (source : SourceId) (size : Nat) : Failure CodegenError → Prop
  | .fault _ | .reported (.registerInUse _) => True
  | .reported e => e.Located source size

theorem Failure.placed_unsupported {what : Unsupported} {span : Span}
    (hspan : Span.In source size span)
    (hline : what.OneLine) : Failure.Placed source size (.reported (.unsupported what span)) := by
  refine ⟨hspan, ?_⟩
  unfold CodegenError.message
  simp only [isLine_append]
  exact ⟨hline.isLine, isLine_ofList (by decide)⟩

theorem Failure.placed_outOfRegisters {span : Span} (hspan : Span.In source size span) :
    Failure.Placed source size (.reported (.outOfRegisters span)) := by
  have hmessage : IsLine "out of registers while lowering expression" := isLine_ofList (by decide)
  exact ⟨hspan, hmessage⟩

/-- A fault is not reported. -/
theorem Outcome.Settles.lift_bind {α β : Type} {x : Except Fault α}
    {g : α → Except (Failure CodegenError) β}
    {P : β → Prop} (h : ∀ v, x = .ok v → Settles (g v) P (Failure.Placed source size)) :
    Settles (liftM x >>= g) P (Failure.Placed source size) := by
  cases x with
  | error f => trivial
  | ok v => exact h v rfl

/-! ### Frames -/

/-- All variables of a frame have types on one line. -/
def Frame.OneLine (f : Frame) : Prop := ∀ p ∈ f.slots, p.2.ty.OneLine

namespace Frame

variable {a : Arena} {table : SymbolTable} {info : SemanticInfo} {f : Frame}

theorem OneLine.insert {b : Binder} (h : f.OneLine) (hb : b.OneLine) (d : NodeId)
    (storage : Storage) :
    (f.insert d b storage).OneLine :=
  List.forall_mem_cons.2 ⟨hb.ty, fun p hp => h p (List.mem_of_mem_filter hp)⟩

theorem settles_slotSize {b : Binder} {span : Span} (hspan : Span.In source size span)
    (hb : b.OneLine) :
    Settles (slotSize table b span) (fun _ => True) (Failure.Placed source size) := by
  unfold slotSize
  split
  · trivial
  · refine .lift_bind fun found _ => ?_
    cases found with
    | some n => trivial
    | none => exact Failure.placed_unsupported hspan ⟨hb.name, hb.ty⟩

theorem slots_allocate {n : Nat} {ty : Ty} {r : Int × Frame} (h : f.allocate n ty = .ok r) :
    r.2.slots = f.slots := by
  simp only [allocate, bind_eq_ok] at h
  obtain ⟨-, -, used, -, h⟩ := h
  split at h
  · cases h
  · cases h
    rfl

/-- A variable of this type gets bytes of its own. -/
theorem settles_place {b : Binder} {span : Span} {g : Nat → Int × Frame → FrameM Frame}
    (hf : f.OneLine) (hspan : Span.In source size span) (hb : b.OneLine)
    (hg : ∀ n r, r.2.OneLine → Settles (g n r) OneLine (Failure.Placed source size)) :
    Settles (do let n ← slotSize table b span; g n (← f.allocate n b.ty)) OneLine
      (Failure.Placed source size) := by
  refine (settles_slotSize hspan hb).bind fun n _ => .lift_bind fun r hr => hg n r ?_
  intro p hp
  rw [slots_allocate hr] at hp
  exact hf p hp

variable (ha : a.From (.program source size))
include ha

theorem settles_addParameter {taken : List NodeId} {index : Nat} {param : NodeId} (hf : f.OneLine) :
    Settles (addParameter a table taken f index param) OneLine (Failure.Placed source size) := by
  refine .lift_bind fun node hnode => ?_
  have hfrom := ha.node hnode
  split
  · exact hf
  · next b hb =>
    have hline := Binder.OneLine.of_kind hfrom.kind hb
    split
    · exact settles_place hf hfrom.span hline fun n r hr => hr.insert hline _ _
    · split
      · exact settles_place hf hfrom.span hline fun n r hr => hr.insert hline _ _
      · exact hf.insert hline _ _
    · exact hf.insert hline _ _

theorem settles_addParameters {taken : List NodeId} {index : Nat} {params : List NodeId}
    (hf : f.OneLine) :
    Settles (addParameters a table taken index params f) OneLine (Failure.Placed source size) := by
  induction params generalizing index f with
  | nil => exact hf
  | cons param rest ih => exact (settles_addParameter ha hf).bind fun f hf => ih hf

theorem settles_addLocal {id : NodeId} (hf : f.OneLine) :
    Settles (addLocal a table f id) OneLine (Failure.Placed source size) := by
  refine .lift_bind fun node hnode => ?_
  have hfrom := ha.node hnode
  split
  · exact hf
  · next b hb =>
    have hline := Binder.OneLine.of_kind hfrom.kind hb
    exact settles_place hf hfrom.span hline fun n r hr => hr.insert hline _ _

theorem settles_layout {function : FunctionNode} :
    Settles (layout a info table function) OneLine (Failure.Placed source size) := by
  refine .lift_bind fun taken _ => ?_
  refine (settles_addParameters ha (by simp [OneLine])).bind fun f hf => ?_
  refine (settles_foldlM (fun f s _ hf => .lift_bind fun ids _ => ?_) hf).bind fun f hf => ?_
  · exact settles_foldlM (fun f id _ hf => settles_addLocal ha hf) hf
  · exact .lift_bind fun n _ => hf

end Frame

/-! ### Parts of code generation -/

namespace Gen

variable {α β X : Type} {cx : Context} {id : NodeId}

/-- What is read while a function is lowered comes from the program. -/
structure Context.Reads (source : SourceId) (size : Nat) (cx : Context) : Prop where
  arena : cx.arena.From (.program source size)
  table : ∃ u, Binding.TableSound cx.arena u cx.table
  types : ∀ id ty, cx.info.typeOf id = some ty → ty.OneLine
  frame : cx.frame.OneLine

/-- Every error that is reported is at a byte of the program, or about a register. -/
def Reports (source : SourceId) (size : Nat) (cx : Context) (x : Gen α) : Prop :=
  ∀ s, Settles (x cx s) (fun _ => True) (Failure.Placed source size)

namespace Reports

variable {x : Gen α} {g : α → Gen β}

theorem pure (v : α) : Reports source size cx (Pure.pure v) := fun _ => trivial

theorem fault (f : Fault) : Reports source size cx (fail (.fault f) : Gen α) := fun _ => trivial

/-- The second step may depend on what the first one gives. -/
theorem bind_of (hx : Reports source size cx x)
    (hg : ∀ s v c t, Emits x cx s v c t → Reports source size cx (g v)) :
    Reports source size cx (x >>= g) := by
  intro s
  have hfirst := hx s
  change Settles (Gen.bind x g cx s) _ _
  unfold Gen.bind
  cases hok : x cx s with
  | error e =>
    rw [hok] at hfirst
    exact hfirst
  | ok o =>
    have hsecond := hg s o.value o.code o.state hok o.state
    dsimp only
    cases hrest : g o.value cx o.state with
    | error e =>
      rw [hrest] at hsecond
      exact hsecond
    | ok o' => trivial

theorem bind (hx : Reports source size cx x) (hg : ∀ v, Reports source size cx (g v)) :
    Reports source size cx (x >>= g) := hx.bind_of fun _ v _ _ _ => hg v

theorem lift (x : Except Fault α) : Reports source size cx (liftM x : Gen α) := by
  cases x <;> exact fun _ => trivial

theorem lift_bind {x : Except Fault α} (hg : ∀ v, x = .ok v → Reports source size cx (g v)) :
    Reports source size cx (liftM x >>= g) :=
  (lift x).bind_of fun _ v _ _ h => hg v (emits_lift.1 h).1

theorem context_bind {g : Context → Gen β} (hg : Reports source size cx (g cx)) :
    Reports source size cx (context >>= g) := by
  refine bind_of (fun _ => trivial) fun s v c t h => ?_
  cases h
  exact hg

theorem state_bind {g : State → Gen β} (hg : ∀ s, Reports source size cx (g s)) :
    Reports source size cx (state >>= g) := bind (fun _ => trivial) hg

theorem node_bind {g : Node → Gen β} (hg : ∀ n, cx.arena.node id = .ok n →
      Reports source size cx (g n)) :
    Reports source size cx (node id >>= g) :=
  bind_of (context_bind (lift _)) fun _ n _ _ h => hg n (emits_node.1 h).1

theorem kind_bind {g : NodeKind → Gen β}
    (hg : ∀ k, cx.arena.kind id = .ok k → Reports source size cx (g k)) :
    Reports source size cx (kind id >>= g) :=
  bind_of (node_bind fun _ _ => pure _) fun _ k _ _ h => hg k (emits_kind.1 h).1

theorem ite {c : Prop} [Decidable c] {y : Gen α} (hx : Reports source size cx x)
    (hy : Reports source size cx y) : Reports source size cx (if c then x else y) := by
  split
  · exact hx
  · exact hy

theorem forM {xs : List X} {g : X → Gen Unit} (h : ∀ y ∈ xs, Reports source size cx (g y)) :
    Reports source size cx (xs.forM g) := by
  induction xs with
  | nil => exact pure ()
  | cons y ys ih => exact (h y (by simp)).bind fun _ => ih fun z hz => h z (by simp [hz])

theorem emit (mnemonic : Mnemonic) (operands : List Operand) :
    Reports source size cx (emit mnemonic operands) := fun _ => trivial

theorem update (g : State → State) : Reports source size cx (update g) := fun _ => trivial

theorem claim (r : Register) : Reports source size cx (claim r) := by
  refine state_bind fun s => ?_
  split
  · exact update _
  · exact fun _ => trivial

theorem release (r : Register) : Reports source size cx (release r) :=
  state_bind fun _ => lift_bind fun _ _ => update _

theorem releaseAll (rs : List Register) : Reports source size cx (releaseAll rs) :=
  forM fun r _ => release r

theorem push (r : Register) : Reports source size cx (push r) := (emit _ _).bind fun _ => update _

theorem shrink (words : Nat) : Reports source size cx (shrink words) :=
  state_bind fun _ => ite (update _) (fault _)

theorem pop (r : Register) : Reports source size cx (pop r) := (emit _ _).bind fun _ => shrink 1

/-- An instruction that is left out unless it is needed. -/
theorem emit_if {c : Prop} [Decidable c] {mnemonic : Mnemonic} {operands : List Operand}
    {g : Unit → Gen β} (hg : Reports source size cx (g ())) :
    Reports source size cx (if c then Gen.emit mnemonic operands >>= g else g ()) :=
  ite ((emit _ _).bind fun _ => hg) hg

section Nodes

variable (hcx : cx.Reads source size)
include hcx

theorem unsupported {what : Unsupported} (h : what.OneLine) :
    Reports source size cx (unsupported what id : Gen α) :=
  node_bind fun _ hn _ => Failure.placed_unsupported (hcx.arena.node hn).span h

/-- A construct without code is reported. -/
theorem guard {c : Prop} [Decidable c] {what : Unsupported} {k : α → Gen β} {y : Gen β}
    (h : what.OneLine) (hy : Reports source size cx y) :
    Reports source size cx (if c then Gen.unsupported what id >>= k else y) :=
  ite ((unsupported hcx h).bind_of fun _ _ _ _ hemits => (emits_unsupported.1 hemits).elim) hy

theorem scratch : Reports source size cx (scratch id) := by
  refine state_bind fun s => ?_
  split
  · exact (update _).bind fun _ => pure _
  · exact node_bind fun _ hn _ => Failure.placed_outOfRegisters (hcx.arena.node hn).span

theorem typeOf_bind {g : Ty → Gen β} (hg : ∀ ty, ty.OneLine → Reports source size cx (g ty)) :
    Reports source size cx (typeOf id >>= g) := by
  have htype : Reports source size cx (typeOf id) := by
    refine context_bind ?_
    split
    · exact pure _
    · exact unsupported hcx trivial
  exact htype.bind_of fun _ ty _ _ h => hg ty (hcx.types id ty (emits_typeOf.1 h).1)

theorem sizeOf {ty : Ty} (hty : ty.OneLine) : Reports source size cx (Gen.sizeOf ty id) := by
  refine context_bind (lift_bind fun found _ => ?_)
  split
  · exact pure _
  · exact unsupported hcx hty

end Nodes

end Reports

end Gen

/-- The types of the fields of a record take one line. -/
theorem SymbolTable.oneLine_of_fieldsFrom {table : SymbolTable} {fields : List Field} {offset : Nat}
    {found : List (Int × Ty)} (hfields : ∀ f ∈ fields, f.ty.OneLine)
    (h : table.fieldsFrom offset fields = .ok (some found)) : ∀ p ∈ found, p.2.OneLine := by
  induction fields generalizing offset found with
  | nil =>
    cases h
    simp
  | cons f rest ih =>
    simp only [fieldsFrom, bind_eq_ok] at h
    obtain ⟨n, -, h⟩ := h
    cases n with
    | none => cases h
    | some n =>
      simp only [bind_eq_ok, pure_eq_ok] at h
      obtain ⟨_, -, others, hothers, heq⟩ := h
      obtain ⟨others, rfl, rfl⟩ := Option.map_eq_some_iff.1 heq
      exact List.forall_mem_cons.2 ⟨hfields f (by simp), ih (fun g hg => hfields g (by simp [hg]))
        hothers⟩

namespace Lowering

open Gen

variable {cx : Context} {id : NodeId} {lower : Lowering}

theorem reports_epilogue : Reports source size cx epilogue :=
  (Reports.emit _ _).bind fun _ => (Reports.emit _ _).bind fun _ => .emit _ _

theorem reports_exit (status : Operand) : Reports source size cx (exit status) :=
  (Reports.emit _ _).bind fun _ => .emit _ _

theorem reports_immediate (id : NodeId) : Reports source size cx (immediate id) := by
  refine .kind_bind fun k _ => ?_
  cases k <;> exact .pure _

theorem reports_newLabel : Reports source size cx newLabel :=
  .state_bind fun _ => (Reports.update _).bind fun _ => .pure _

theorem reports_placeLabel (name : String) : Reports source size cx (placeLabel name) :=
  fun _ => trivial

/-- The parts of expressions report errors at a byte of the program. -/
structure ReportsParts (source : SourceId) (size : Nat) (cx : Context) (lower : Lowering) :
    Prop where
  expression : ∀ id, Reports source size cx (lower.expression id)
  place : ∀ id, Reports source size cx (lower.place id)

section Context

variable (hcx : cx.Reads source size)
include hcx

/-! ### Loads, stores and records -/

theorem oneLine_fields {record : String} {found : List (Int × Ty)}
    (h : cx.table.fields record = .ok (some found)) : ∀ p ∈ found, p.2.OneLine := by
  obtain ⟨u, htable⟩ := hcx.table
  simp only [SymbolTable.fields, bind_eq_ok] at h
  obtain ⟨fields, hfields, h⟩ := h
  cases fields with
  | none => cases h
  | some fields =>
    exact SymbolTable.oneLine_of_fieldsFrom (htable.oneLine_fields hcx.arena hfields) h

theorem reports_load {ty : Ty} (hty : ty.OneLine) (location : Location) (target : Register) :
    Reports source size cx (load location ty target id) := by
  cases location with
  | register => exact .emit _ _
  | memory => exact (Reports.sizeOf hcx hty).bind fun _ => .emit _ _

theorem reports_store {ty : Ty} (hty : ty.OneLine) (location : Location) (value : Register) :
    Reports source size cx (store location ty value id) := by
  cases location with
  | register => exact .emit _ _
  | memory => exact (Reports.sizeOf hcx hty).bind fun _ => .emit _ _

theorem reports_targetOf (p : Place) : Reports source size cx (targetOf p id) := by
  unfold targetOf
  split
  · exact .pure _
  · exact .scratch hcx

theorem reports_variablePlace : Reports source size cx (variablePlace id) := by
  have hslot : Reports source size cx (slotOf id) := by
    refine .context_bind ?_
    split
    · exact .unsupported hcx trivial
    · refine .lift_bind fun entry _ => ?_
      split
      · exact .pure _
      · split
        · exact .pure _
        · exact .unsupported hcx trivial
      · exact .unsupported hcx trivial
  refine hslot.bind fun slot => ?_
  split
  · exact .pure _
  · exact .pure _
  · exact .pure _
  · exact .pure _
  · exact (Reports.scratch hcx).bind fun _ => (Reports.emit _ _).bind fun _ => .pure _

theorem reports_copyFields (r : Register) (depth : Nat) (record : String) (src dst : Address) :
    Reports source size cx (copyFields r id depth record src dst) := by
  induction depth generalizing record src dst with
  | zero => exact .unsupported hcx trivial
  | succ depth ih =>
    refine .context_bind (.lift_bind fun found hfound => ?_)
    split
    · exact .unsupported hcx trivial
    · refine .forM fun p hp => .lift_bind fun _ _ => .lift_bind fun _ _ => ?_
      have hty := oneLine_fields hcx hfound p hp
      split
      · exact ih _ _ _
      · exact (reports_load hcx hty _ _).bind fun _ => reports_store hcx hty _ _

theorem reports_zeroFill (depth : Nat) {ty : Ty} (hty : ty.OneLine) (target : Address) :
    Reports source size cx (zeroFill id depth ty target) := by
  have hplain : Reports source size cx (do
      let width := Width.ofSize (← Gen.sizeOf ty id)
      emit .mov [.mem width target, .imm 0]) := (Reports.sizeOf hcx hty).bind fun _ => .emit _ _
  induction depth generalizing ty target with
  | zero =>
    cases ty with
    | record name => exact .unsupported hcx hty
    | _ => exact hplain
  | succ depth ih =>
    cases ty with
    | record name =>
      refine .context_bind (.lift_bind fun found hfound => ?_)
      split
      · exact .unsupported hcx hty
      · refine .forM fun p hp => .lift_bind fun _ _ => ?_
        have hfield := oneLine_fields hcx hfound p hp
        exact ih hfield _ ((Reports.sizeOf hcx hfield).bind fun _ => .emit _ _)
    | _ => exact hplain

theorem reports_declareLocal (id : NodeId) : Reports source size cx (declareLocal id) := by
  refine .context_bind ?_
  split
  · next displacement ty _ hslot =>
    exact reports_zeroFill hcx _ (hcx.frame _ (Frame.mem_of_slot? hslot)) _
  · exact .pure _

/-! ### Operators and callees -/

theorem reports_rejectText (op : BinaryOp) (left : NodeId) :
    Reports source size cx (rejectText id op left) :=
  .ite (.pure _) (.typeOf_bind hcx fun _ _ => .ite (.unsupported hcx trivial) (.pure _))

theorem reports_divide (result dividend divisor : Register) :
    Reports source size cx (divide id result dividend divisor) := by
  unfold divide
  extract_lets jp
  have hdivide : ∀ d, Reports source size cx (jp d) := by
    intro d
    refine .state_bind fun s => .emit_if (.emit_if (.emit_if ?_))
    refine (Reports.emit _ _).bind fun _ => (Reports.emit _ _).bind fun _ => ?_
    exact .emit_if (.emit_if (.emit_if ((Reports.release _).bind fun _ => .pure _)))
  refine .ite ?_ ((Reports.pure _).bind hdivide)
  exact (Reports.scratch hcx).bind fun _ => (Reports.emit _ _).bind fun _ =>
    (Reports.release _).bind fun _ =>
    (Reports.pure _).bind hdivide

theorem reports_calleeOf {name : String} (hname : IsLine name) (args : List NodeId) :
    Reports source size cx (calleeOf id name args) := by
  refine .context_bind ?_
  split
  · exact .unsupported hcx hname
  · refine .lift_bind fun found _ => ?_
    split
    · exact .unsupported hcx hname
    · refine .guard hcx trivial (.lift_bind fun params _ => ?_)
      split
      · exact .unsupported hcx hname
      · exact .pure _
  · split
    · exact .unsupported hcx hname
    · exact .pure _

theorem isLine_call {name : String} {args : List NodeId}
    (h : cx.arena.kind id = .ok (.call name args)) :
    IsLine name := IsName.isLine (hcx.arena.kind h)

section Parts

variable (hparts : ReportsParts source size cx lower)
include hparts

/-! ### Places -/

theorem reports_fieldPlace (base : NodeId) (name : String) :
    Reports source size cx (fieldPlace lower id base name) := by
  refine .typeOf_bind hcx fun ty _ => ?_
  split
  · refine .context_bind (.lift_bind fun found _ => ?_)
    split
    · exact .unsupported hcx trivial
    · refine (hparts.place base).bind fun outer => ?_
      split
      · exact .lift_bind fun _ _ => .pure _
      · exact .unsupported hcx trivial
  · exact .unsupported hcx trivial

theorem reports_elementPlace (base index : NodeId) :
    Reports source size cx (elementPlace lower id base index) :=
  .typeOf_bind hcx fun _ hty => (Reports.sizeOf hcx hty).bind fun _ =>
    (hparts.expression base).bind fun _ => (hparts.expression index).bind fun _ =>
      (Reports.emit _ _).bind fun _ => (Reports.emit _ _).bind fun _ => (Reports.release _).bind
        fun _ =>
        .pure _

theorem reports_placeAt (id : NodeId) : Reports source size cx (placeAt lower id) := by
  refine .kind_bind fun k _ => ?_
  split
  · exact reports_variablePlace hcx
  · exact reports_fieldPlace hcx hparts _ _
  · exact reports_elementPlace hcx hparts _ _
  · exact .unsupported hcx trivial

theorem reports_address : Reports source size cx (address lower id) := by
  refine (hparts.place id).bind fun p => ?_
  split
  · exact .unsupported hcx trivial
  · exact (reports_targetOf hcx p).bind fun _ => (Reports.emit _ _).bind fun _ => .pure _

/-! ### Expressions -/

theorem reports_step (op : UnaryOp) (operand : NodeId) :
    Reports source size cx (step lower id op operand) := by
  refine .typeOf_bind hcx fun ty hty => (hparts.place operand).bind fun p =>
    (Reports.scratch hcx).bind fun value => (reports_load hcx hty _ _).bind fun _ => ?_
  have hrelease : ∀ _ : Unit, Reports source size cx (releasePlace p >>= fun _ => pure value) :=
    fun _ => (Reports.releaseAll _).bind fun _ => .pure _
  have hbefore : ∀ change : Mnemonic, Reports source size cx (emit change [.reg value, .imm 1] >>=
      fun _ =>
      store p.location ty value operand >>= fun _ => releasePlace p >>= fun _ => pure value) :=
    fun _ => (Reports.emit _ _).bind fun _ => (reports_store hcx hty _ _).bind hrelease
  have hafter : ∀ change : Mnemonic, Reports source size cx (scratch id >>= fun updated =>
      emit .mov [.reg updated, .reg value] >>= fun _ => emit change [.reg updated, .imm 1] >>=
        fun _ =>
      store p.location ty updated operand >>= fun _ => release updated >>= fun _ =>
      releasePlace p >>= fun _ => pure value) :=
    fun _ => (Reports.scratch hcx).bind fun _ => (Reports.emit _ _).bind fun _ =>
      (Reports.emit _ _).bind
      fun _ => (reports_store hcx hty _ _).bind fun _ => (Reports.release _).bind hrelease
  cases op with
  | preIncrement | preDecrement => exact hbefore _
  | postIncrement | postDecrement | minus | not => exact hafter _

theorem reports_unary (op : UnaryOp) (operand : NodeId) :
    Reports source size cx (unary lower id op operand) := by
  cases op with
  | minus | not =>
    exact (hparts.expression operand).bind fun _ => (Reports.emit _ _).bind fun _ => .pure _
  | preIncrement | preDecrement | postIncrement | postDecrement =>
    unfold unary
    exact reports_step hcx hparts _ _

theorem reports_binary (op : BinaryOp) (left right : NodeId) :
    Reports source size cx (binary lower id op left right) := by
  refine (reports_rejectText hcx op left).bind fun _ => (hparts.expression left).bind fun _ =>
    (hparts.expression right).bind fun _ => ?_
  cases op with
  | plus | minus | times | and | or =>
    exact (Reports.emit _ _).bind fun _ => (Reports.release _).bind fun _ => .pure _
  | div | mod => exact reports_divide hcx _ _ _
  | equal | unequal | lesser | lesserEq | greater | greaterEq =>
    exact (Reports.emit _ _).bind fun _ => (Reports.emit _ _).bind fun _ => (Reports.emit _ _).bind
      fun _ =>
      (Reports.release _).bind fun _ => .pure _

theorem reports_pushArgument (arg : NodeId) (byAddress : Bool) :
    Reports source size cx (pushArgument lower arg byAddress) := by
  unfold pushArgument
  extract_lets jp
  have hpush : ∀ r, Reports source size cx (jp r) :=
    fun r => (Reports.push r).bind fun _ => .release r
  exact .ite (.kind_bind fun _ _ => .guard hcx trivial ((reports_address hcx hparts).bind hpush))
    ((hparts.expression arg).bind hpush)

theorem reports_passArguments (callee : Callee) (args : List NodeId) :
    Reports source size cx (passArguments lower callee args) := by
  refine .state_bind fun _ => (Reports.forM fun r _ => .push r).bind fun _ =>
    .state_bind fun _ => ?_
  extract_lets padding jp
  have hjp : ∀ v, Reports source size cx (jp v) := fun _ =>
    (Reports.forM fun p _ => reports_pushArgument hcx hparts p.1 p.2).bind fun _ =>
      (Reports.forM fun r _ => .pop r).bind fun _ => .pure _
  exact .ite ((Reports.emit _ _).bind fun _ => (Reports.update _).bind hjp) (hjp ())

theorem reports_callNode {name : String} (hname : IsLine name) (args : List NodeId) :
    Reports source size cx (callNode lower id name args) := by
  have hresult : ∀ (callee : Callee) (saved : List Register), Reports source size cx
      (if callee.returnsValue = true then takeResult id >>= fun r => pure (some r) >>= fun result =>
        saved.reverse.forM pop >>= fun _ => pure result
        else pure none >>= fun result => saved.reverse.forM pop >>= fun _ => pure result) := by
    intro callee saved
    have hpops : ∀ result : Option Register, Reports source size cx (pure result >>= fun result =>
        saved.reverse.forM pop >>= fun _ => pure result) := fun _ =>
      (Reports.pure _).bind fun _ => (Reports.forM fun r _ => .pop r).bind fun _ => .pure _
    have htake : Reports source size cx (takeResult id) :=
      (Reports.scratch hcx).bind fun _ => .emit_if (.pure _)
    exact .ite (htake.bind fun r => hpops (some r)) (hpops none)
  refine (reports_calleeOf hcx hname args).bind fun callee => .state_bind fun s =>
    (reports_passArguments hcx hparts callee args).bind fun dropped => (Reports.emit _ _).bind
      fun _ => ?_
  exact .ite ((Reports.emit _ _).bind fun _ => (Reports.shrink _).bind fun _ => hresult callee _)
    (hresult callee _)

theorem reports_call (id : NodeId) : Reports source size cx (call lower id) := by
  refine .kind_bind fun k hk => ?_
  split
  · exact reports_callNode hcx hparts (isLine_call hcx hk) _
  · exact .pure _

theorem reports_expressionAt (id : NodeId) : Reports source size cx (expressionAt lower id) := by
  have hconstant : ∀ value, Reports source size cx (constant id value) := fun _ =>
    (Reports.scratch hcx).bind fun _ => (Reports.emit _ _).bind fun _ => .pure _
  have hvalue : Reports source size cx (placeValue lower id) :=
    .typeOf_bind hcx fun _ hty => .guard hcx trivial ((reports_placeAt hcx hparts id).bind fun p =>
      (reports_targetOf hcx p).bind fun _ => (reports_load hcx hty _ _).bind fun _ => .pure _)
  refine .kind_bind fun k hk => ?_
  cases k with
  | int | bool => exact hconstant _
  | text value =>
    have htext : Reports source size cx (textConstant value) :=
      .state_bind fun _ => (Reports.update _).bind fun _ => .pure _
    exact htext.bind fun _ => (Reports.scratch hcx).bind fun _ => (Reports.emit _ _).bind
      fun _ => .pure _
  | var | field | element => exact hvalue
  | unary op operand => exact reports_unary hcx hparts op operand
  | binary op left right => exact reports_binary hcx hparts op left right
  | call name args =>
    refine (reports_callNode hcx hparts (isLine_call hcx hk) args).bind fun result => ?_
    split
    · exact .pure _
    · exact .unsupported hcx trivial
  | _ => exact .unsupported hcx trivial

/-! ### Statements -/

theorem reports_assignRecord (record : String) (target value : NodeId) :
    Reports source size cx (assignRecord lower record target value) := by
  refine .kind_bind fun _ _ => .guard hcx trivial ((hparts.place value).bind fun _ =>
    (hparts.place target).bind fun _ => ?_)
  split
  · exact (Reports.scratch hcx).bind fun _ =>
      (Reports.context_bind (reports_copyFields hcx _ _ _ _ _)).bind fun _ =>
        (Reports.release _).bind fun _ =>
        (Reports.releaseAll _).bind fun _ => .releaseAll _
  · exact .unsupported hcx trivial

theorem reports_assign (target value : NodeId) :
    Reports source size cx (assign lower target value) := by
  refine .typeOf_bind hcx fun ty hty => ?_
  split
  · exact reports_assignRecord hcx hparts _ _ _
  · exact (hparts.expression value).bind fun _ => (hparts.place target).bind fun _ =>
      (reports_store hcx hty _ _).bind fun _ => (Reports.releaseAll _).bind fun _ => .release _

theorem reports_returnStatement (value : Option NodeId) :
    Reports source size cx (returnStatement lower value) := by
  have hvalue : Reports source size cx (returnedValue lower value) := by
    cases value with
    | none => exact .pure _
    | some value =>
      exact .typeOf_bind hcx fun _ _ => .ite ((reports_call hcx hparts value).bind fun _ =>
        (Reports.releaseAll _).bind fun _ => .pure _) (.pure _)
  have hexit : ∀ value, Reports source size cx (exitWith lower value) := by
    intro value
    cases value with
    | none => exact reports_exit _
    | some value =>
      refine (reports_immediate value).bind fun found => ?_
      split
      · exact reports_exit _
      · exact (hparts.expression value).bind fun _ => (reports_exit _).bind fun _ => .release _
  have hgive : ∀ value, Reports source size cx (giveBack lower value) := by
    intro value
    refine .typeOf_bind hcx fun _ _ => .guard hcx trivial ((reports_immediate value).bind
      fun found => ?_)
    split
    · exact .emit _ _
    · exact (hparts.expression value).bind fun _ => .emit_if (.release _)
  exact hvalue.bind fun value => .context_bind (.ite (hexit value)
    ((Reports.forM fun v _ => hgive v).bind fun _ => reports_epilogue))

theorem reports_test (shape : Test) : Reports source size cx (test lower id shape) := by
  cases shape with
  | comparison op condition left right =>
    exact (reports_rejectText hcx op left).bind fun _ => (hparts.expression left).bind fun _ =>
      (hparts.expression right).bind fun _ => (Reports.emit _ _).bind fun _ =>
        (Reports.release _).bind fun _ => (Reports.release _).bind fun _ => .pure _
  | constant | value =>
    exact (hparts.expression id).bind fun _ => (Reports.emit _ _).bind fun _ =>
      (Reports.release _).bind fun _ => .pure _

theorem reports_branch {run : NodeId → Gen Unit} (hrun : ∀ id, Reports source size cx (run id))
    (condition onTrue : NodeId) (onFalse : Option NodeId) :
    Reports source size cx (branch lower run condition onTrue onFalse) := by
  have htested : ∀ shape,
      Reports source size cx (branchOn lower run condition shape onTrue onFalse) := by
    intro shape
    have hjump : ∀ target, Reports source size cx (jumpUnless lower condition shape target) :=
      fun _ =>
      (reports_test hcx hparts shape).bind fun _ => .emit _ _
    refine reports_newLabel.bind fun _ => (hjump _).bind fun _ => (hrun onTrue).bind fun _ => ?_
    split
    · exact reports_placeLabel _
    · exact reports_newLabel.bind fun _ => (Reports.emit _ _).bind fun _ =>
        (reports_placeLabel _).bind fun _ =>
        (hrun _).bind fun _ => reports_placeLabel _
  refine .kind_bind fun k _ => ?_
  split
  · exact hrun onTrue
  · exact .forM fun s _ => hrun s
  · exact htested _

theorem reports_loop {run : NodeId → Gen Unit} (hrun : ∀ id, Reports source size cx (run id))
    (condition body : NodeId) :
    Reports source size cx (loop lower run condition body) := by
  have htested : ∀ shape, Reports source size cx (loopOn lower run condition shape body) := by
    intro shape
    have hjump : ∀ target, Reports source size cx (jumpIf lower condition shape target) := fun _ =>
      (reports_test hcx hparts shape).bind fun _ => .emit _ _
    exact reports_newLabel.bind fun _ => reports_newLabel.bind fun _ => (Reports.emit _ _).bind
      fun _ => (reports_placeLabel _).bind fun _ =>
      (hrun body).bind fun _ => (reports_placeLabel _).bind fun _ => hjump _
  refine .kind_bind fun k _ => ?_
  split
  · exact .pure _
  · exact reports_newLabel.bind fun _ => (reports_placeLabel _).bind fun _ => (hrun body).bind
      fun _ => .emit _ _
  · exact htested _

theorem reports_statement (depth : Nat) (id : NodeId) :
    Reports source size cx (statement lower depth id) := by
  induction depth generalizing id with
  | zero => exact .fault _
  | succ depth ih =>
    refine .kind_bind fun k _ => ?_
    cases k with
    | block body => exact .forM fun s _ => ih s
    | declare declaration => exact reports_declareLocal hcx declaration
    | assign target value => exact reports_assign hcx hparts target value
    | callStatement c => exact (reports_call hcx hparts c).bind fun _ => .releaseAll _
    | branch condition onTrue onFalse => exact reports_branch hcx hparts ih condition onTrue onFalse
    | loop condition body => exact reports_loop hcx hparts ih condition body
    | ret value => exact reports_returnStatement hcx hparts value
    | empty | dummy | declaration | function | record | unit => exact .pure _
    | _ => exact (hparts.expression id).bind fun _ => .release _

end Parts

/-! ### Functions -/

theorem reports_atDepth (depth : Nat) : ReportsParts source size cx (atDepth depth) := by
  induction depth with
  | zero => exact ⟨fun _ => .fault _, fun _ => .fault _⟩
  | succ depth ih => exact ⟨reports_expressionAt hcx ih, reports_placeAt hcx ih⟩

theorem reports_functionBody (label : String) (f : FunctionNode) :
    Reports source size cx (functionBody label f) := by
  have hcopy : ∀ p, Reports source size cx (copyParameter p) := by
    intro p
    unfold copyParameter
    extract_lets incoming
    cases incoming with
    | none => exact .pure _
    | some operand =>
      exact (Reports.claim _).bind fun _ => (Reports.claim _).bind fun _ => (Reports.emit _ _).bind
        fun _ =>
        (Reports.context_bind (reports_copyFields hcx _ _ _ _ _)).bind fun _ =>
          (Reports.release _).bind fun _ => .release _
  have hprologue : Reports source size cx prologue :=
    .context_bind ((Reports.emit _ _).bind fun _ => (Reports.emit _ _).bind fun _ =>
      .emit_if (.emit_if
      ((Reports.forM fun _ _ => .emit _ _).bind fun _ => .forM fun p _ => hcopy p)))
  have hends : Reports source size cx (endsWithReturn f.body) := by
    unfold endsWithReturn
    split
    · exact .kind_bind fun _ _ => .pure _
    · exact .pure _
  refine .context_bind ((Reports.forM fun r _ => .claim r).bind fun _ => ?_)
  refine Reports.bind (fun _ => trivial) fun _ => hprologue.bind fun _ => ?_
  refine (Reports.forM fun s _ => reports_statement hcx (reports_atDepth hcx _) _ s).bind
    fun _ => ?_
  exact hends.bind fun _ => .ite (.ite (reports_exit _) reports_epilogue) (.pure _)

end Context

/-! ### Programs -/

section Program

variable {a : Arena} {table : SymbolTable} {info : SemanticInfo}
  (ha : a.From (.program source size))
include ha

theorem placed_global (out : Assembly) (id : NodeId) :
    Settles (global a table out id) (fun _ => True) (Failure.Placed source size) := by
  refine .lift_bind fun node hnode => ?_
  have hfrom := ha.node hnode
  split
  · trivial
  · next b hb =>
    have hline := Binder.OneLine.of_kind hfrom.kind hb
    refine .lift_bind fun found _ => ?_
    split
    · trivial
    · exact Failure.placed_unsupported hfrom.span ⟨hline.name, hline.ty⟩

theorem placed_addFunction {u : UnitNode} (htable : Binding.TableSound a u table)
    (htypes : ∀ id ty, info.typeOf id = some ty → ty.OneLine) (labels : List (NodeId × String))
    (out : Assembly) (f : NodeId × FunctionNode) :
    Settles (addFunction a info table labels out f) (fun _ => True)
      (Failure.Placed source size) := by
  have hfunction : ∀ texts label, Settles (function a info table labels texts label f.2)
      (fun _ => True)
      (Failure.Placed source size) := by
    intro texts label
    refine (Frame.settles_layout ha).bind fun frame hframe => ?_
    have hbody := @reports_functionBody source size
      ⟨a, info, table, labels, frame, label = entryLabel⟩
      ⟨ha, ⟨u, htable⟩, htypes, hframe⟩ label f.2 { texts := texts }
    exact hbody.bind fun _ _ => trivial
  exact (hfunction _ _).bind fun _ _ => trivial

end Program

end Lowering

/-- The error of an accepted program that has no code is at one of its bytes. -/
theorem Accepted.located_generate {a : Arena} {table : SymbolTable} {info : SemanticInfo}
    (h : Accepted a table info) (ha : a.From (.program source size))
    (htypes : ∀ id ty, info.typeOf id = some ty → ty.OneLine) {e : CodegenError}
    (he : a.generate info table = .error (.reported e)) : e.Located source size := by
  obtain ⟨u, hu, hprogram⟩ := h.checkedProgram
  have hplaced : Settles (a.generate info table) (fun _ => True) (Failure.Placed source size) := by
    refine Settles.bind (P := fun _ => True) ?_ fun out _ => ?_
    · unfold Arena.assemble
      rw [hu]
      refine (settles_foldlM (P := fun _ => True) (fun out id _ _ =>
        Lowering.placed_global ha out id) trivial).bind fun out _ => ?_
      refine .lift_bind fun functions _ => ?_
      exact settles_foldlM (fun out f _ _ =>
        Lowering.placed_addFunction ha hprogram.bound.sound htypes _ out f) trivial
    · cases out.render with
      | error f => trivial
      | ok text => trivial
  rw [he] at hplaced
  cases e with
  | registerInUse r => exact absurd trivial (h.avoids_generate _ he)
  | outOfRegisters span => exact hplaced
  | unsupported what span => exact hplaced

end MiniJ
