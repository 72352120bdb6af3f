import MiniJ.Proofs.Lowering.Call
import MiniJ.Proofs.Lowering.Soundness

/-!
# Expressions compute their values

The code of an expression leaves the value of the expression in its register, in a machine that
represents the store behind the evaluation.

## Main definitions

* `Activation.Addresses` — a location holds what a region stands for.
* `Activation.Spares` — code that only writes to free registers and below the stack pointer.
* `Activation.Advances` — what code does to a machine that represents a store.
* `Lowering.Correct` — the code of expressions and places does what they mean.

## Main statements

* `Lowering.correct_atDepth` — expressions and places of any depth.
* `Lowering.expression_computes` — the value, the store and the registers after an expression.
-/
namespace MiniJ

/-- A claimed register is neither live nor one of the frame. -/
theorem Gen.Claims.ne_of_kept {rs : List Register} {p q : Register} {s t : Gen.State}
    (h : Gen.Claims rs s t) (hq : q ∈ rs) (hp : p ∈ s.registers.live ∨ p = .rbp ∨ p = .rsp) :
    p ≠ q := by
  have htracked := Register.mem_tracked_of_scratch (h.free q hq).1
  rintro rfl
  rcases hp with hp | rfl | rfl
  · exact (h.free _ hq).2 hp
  · exact Register.ne_rbp_of_tracked htracked rfl
  · exact Register.ne_rsp_of_tracked htracked rfl

namespace Activation

open Gen Machine

/-- The registers of parameters are live. -/
def Claimed (A : Activation) (s : State) : Prop :=
  ∀ q ∈ A.context.frame.parameterRegisters, q ∈ s.registers.live

/-- The value of a region is at a location, and no register that code may write to is involved. -/
inductive Addresses (A : Activation) (s : State) (m : Machine) : Location → Region → Ty → Prop
  | register {d : NodeId} {q : Register} {ty : Ty}
      (slot : A.context.frame.slot? d = some ⟨.register q, ty, false⟩) :
      Addresses A s m (.register q) (.whole (.inner d)) ty
  | memory {a : Address} {r : Region} {ty : Ty} (located : A.Located r ty (m.locate A.env a))
      (steady : ∀ q, a.base = .register q → q = .rbp ∨ q ∈ s.registers.live ∧ ¬A.Resident q) :
      Addresses A s m (.memory a) r ty

/-- The register holds a parameter that has a new value. -/
def Updated (A : Activation) (σ σ' : Store) (q : Register) : Prop :=
  ∃ d ty, A.context.frame.slot? d = some ⟨.register q, ty, false⟩ ∧
    σ' (.whole (.inner d)) ≠ σ (.whole (.inner d))

/-- Code has run from a machine that represents a store: it represents another one now, and what was
in a live register still is, but for parameters. -/
structure Advances (A : Activation) (s : State) (σ : Store) (m m' : Machine) : Prop where
  represents : A.Represents σ m'
  live : ∀ q ∈ s.registers.live, ¬A.Resident q → m'.regs q = m.regs q

/-- Code writes to free registers and below the stack pointer only. -/
structure Spares (A : Activation) (s : State) (m m' : Machine) : Prop where
  regs : ∀ q, q ∈ s.registers.live ∨ q = .rbp ∨ q = .rsp → m'.regs q = m.regs q
  mem : ∀ x : Word, ¬(x - (A.top - 16#64)).toNat < 16 → m'.mem x = m.mem x

variable {A : Activation} {f : FunctionNode} {s t : State} {σ σ' : Store} {m m₁ m' : Machine}
  {r : Region} {ty : Ty} {q : Register} {v : Value} {location : Location} {line : Line}

theorem Claimed.mono (h : A.Claimed s) (hlive : ∀ q ∈ s.registers.live, q ∈ t.registers.live) :
    A.Claimed t := fun q hq => hlive q (h q hq)

theorem Claimed.claims {rs : List Register} (h : A.Claimed s) (hclaims : Claims rs s t) :
    A.Claimed t := h.mono fun _ hq => hclaims.mono hq

/-- A register that code claims holds no parameter. -/
theorem Claimed.not_resident {rs : List Register} (h : A.Claimed s) (hclaims : Claims rs s t)
    (hq : q ∈ rs) : ¬A.Resident q := by
  rintro ⟨d, ty, hd⟩
  exact (hclaims.free q hq).2 (h q (mem_parameterRegisters hd))

theorem Advances.refl (h : A.Represents σ m) : A.Advances s σ m m := ⟨h, fun _ _ _ => rfl⟩

theorem Advances.trans (h : A.Advances s σ m m₁) (h' : A.Advances t σ' m₁ m')
    (hlive : ∀ q ∈ s.registers.live, q ∈ t.registers.live) : A.Advances s σ' m m' :=
  ⟨h'.represents, fun q hq hres => (h'.live q (hlive q hq) hres).trans (h.live q hq hres)⟩

/-- Code that claims registers for itself spares those of parameters. -/
theorem Claimed.quiet (hs : A.Claimed s) (h : A.Spares s m m') : A.Quiet m m' :=
  ⟨fun q hq => h.regs q (hq.imp_left (hs q)), h.mem⟩

theorem Represents.spare (hA : A.Of f) (h : A.Represents σ m) (hs : A.Claimed s)
    (hspares : A.Spares s m m') : A.Advances s σ m m' :=
  ⟨h.quiet hA (hs.quiet hspares), fun q hq _ => hspares.regs q (.inl hq)⟩

theorem Advances.spare (hA : A.Of f) (h : A.Advances s σ m m₁) (hs : A.Claimed s)
    (hspares : A.Spares s m₁ m') : A.Advances s σ m m' :=
  h.trans (h.represents.spare hA hs hspares) fun _ hq => hq

namespace Spares

theorem trans (h : A.Spares s m m₁) (h' : A.Spares s m₁ m') : A.Spares s m m' :=
  ⟨fun q hq => (h'.regs q hq).trans (h.regs q hq), fun x hx => (h'.mem x hx).trans (h.mem x hx)⟩

theorem mono (h : A.Spares t m m') (hlive : ∀ q ∈ s.registers.live, q ∈ t.registers.live) :
    A.Spares s m m' := ⟨fun q hq => h.regs q (hq.imp_left (hlive q)), h.mem⟩

theorem clear (h : A.Spares s m m') : A.Spares s m m'.clear := ⟨h.regs, h.mem⟩

/-- Code that only writes to a register it claims. -/
theorem of_regs {rs : List Register} (hclaims : Claims rs s t) (hq : q ∈ rs) (hmem : m'.mem = m.mem)
    (hregs : ∀ p, p ≠ q → m'.regs p = m.regs p) : A.Spares s m m' :=
  ⟨fun p hp => hregs p (hclaims.ne_of_kept hq hp), fun x _ => by rw [hmem]⟩

theorem set (hclaims : Claims [q] s t) (w : Word) : A.Spares s m (m.set q w) :=
  .of_regs hclaims (by simp) rfl fun _ hp => regs_set_of_ne _ _ hp

end Spares

/-! ### Loads and stores -/

/-- A scalar is read from its location. -/
theorem Addresses.load (h : A.Addresses s m location r ty) (hrep : A.Represents σ m)
    (hscalar : ty.isRecord = false) (hloads : Lowering.Loads A.context ty q location line) :
    RunsTo A.env [line] m (m.set q (σ r).word) ∧ (σ r).Fits ty := by
  cases h with
  | register slot =>
    cases hloads with
    | register source =>
      obtain ⟨hword, hfits⟩ := hrep.register slot
      exact ⟨hword ▸ .line rfl, hfits⟩
  | memory located steady =>
    cases hloads with
    | @memory address n size =>
      have hn := SymbolTable.scalarBytes_iff.2 ⟨size, hscalar⟩
      have hread := hrep.scalar located hn
      refine ⟨.line (exec_load (Ty.scalarBytes_cases hn) hread), fun k hk => ?_⟩
      cases hn.symm.trans hk
      rw [← hread]
      exact Memory.read_lt _ _ _

/-- A scalar is written to its location. -/
theorem Addresses.store (hA : A.Of f) (h : A.Addresses s m location r ty) (hrep : A.Represents σ m)
    (hscalar : ty.isRecord = false) (hstores : Lowering.Stores A.context ty q location line)
    (hq : m.regs q = v.word) (hv : v.Fits ty) :
    ∃ m', RunsTo A.env [line] m m' ∧ A.Represents (σ.set r v) m' ∧
      ∀ p, ¬A.Resident p → m'.regs p = m.regs p := by
  cases h with
  | @register d p _ slot =>
    cases hstores with
    | register target =>
      refine ⟨m.set p v.word, hq ▸ .line rfl, hrep.assign hA slot hv, fun x hx => ?_⟩
      refine regs_set_of_ne _ _ ?_
      rintro rfl
      exact hx ⟨d, ty, slot⟩
  | memory located steady =>
    cases hstores with
    | @memory address n size =>
      have hn := SymbolTable.scalarBytes_iff.2 ⟨size, hscalar⟩
      exact ⟨_, .line (exec_store_word (Ty.scalarBytes_cases hn) hq (hv n hn)),
        hrep.write hA located hn hv, fun _ _ => rfl⟩

/-- A location stays where it is as long as the registers that it involves do. -/
theorem Addresses.mono (h : A.Addresses s m location r ty) (hrbp : m'.regs .rbp = m.regs .rbp)
    (hregs : ∀ q ∈ s.registers.live, ¬A.Resident q → m'.regs q = m.regs q)
    (hlive : ∀ q ∈ s.registers.live, q ∈ t.registers.live) : A.Addresses t m' location r ty := by
  cases h with
  | register slot => exact .register slot
  | @memory a _ _ located steady =>
    refine .memory ?_ fun q hq => (steady q hq).imp_right fun h => ⟨hlive q h.1, h.2⟩
    have hlocate : m'.locate A.env a = m.locate A.env a := by
      unfold locate
      cases hbase : a.base with
      | symbol name => rfl
      | register q =>
        rcases steady q hbase with rfl | ⟨hq, hres⟩
        · simp only [hrbp]
        · simp only [hregs q hq hres]
    rw [hlocate]
    exact located

end Activation

namespace Lowering

open Gen Machine Activation

variable {A : Activation} {f : FunctionNode} {lower : Lowering} {s s' t : State} {σ σ' : Store}
  {m m' : Machine} {id : NodeId} {r : Region} {ty : Ty} {q : Register} {v : Value}
  {code : List Line}

/-- The code of expressions computes their values, and the code of places finds their regions. -/
structure Correct (lower : Lowering) (A : Activation) : Prop where
  expression : ∀ {id ty s q code s' σ v σ' m},
    A.context.arena.Typed A.unit A.context.table A.context.info id ty →
    Emits (lower.expression id) A.context s q code s' → A.Claimed s →
    A.scene.Evaluates σ id v σ' → A.Represents σ m →
    ∃ m', RunsTo A.env code m m' ∧ A.Advances s σ' m m' ∧ m'.regs q = v.word ∧ v.Fits ty
  place : ∀ {id ty s p code s' σ r m},
    A.context.arena.Typed A.unit A.context.table A.context.info id ty →
    Emits (lower.place id) A.context s p code s' → A.Claimed s → A.scene.Denotes id r →
    A.Represents σ m → ∃ m', RunsTo A.env code m m' ∧ A.Advances s σ m m' ∧
      A.Addresses s' m' p.location r ty

theorem PlaceShape.correct (hA : A.Of f) (hlower : Correct lower A)
    (htyped : A.context.arena.Typed A.unit A.context.table A.context.info id ty) {p : Place}
    (h : PlaceShape lower A.context id s p code s') (hs : A.Claimed s)
    (hr : A.scene.Denotes id r) (hrep : A.Represents σ m) :
    ∃ m', RunsTo A.env code m m' ∧ A.Advances s σ m m' ∧ A.Addresses s' m' p.location r ty := by
  cases h with
  | global kind stored =>
    obtain ⟨rfl, hcarries⟩ := hA.carries stored htyped kind hr
    refine ⟨m, .nil m, .refl hrep, .memory ?_ fun _ hq => by cases hq⟩
    cases hcarries with
    | global mem kind => exact .mk (.global mem kind) (.here _)
    | value slot | reference slot => exact absurd slot hA.slot_ne_global
  | register kind stored =>
    obtain ⟨rfl, hcarries⟩ := hA.carries stored htyped kind hr
    cases hcarries with
    | value slot => exact ⟨m, .nil m, .refl hrep, .register slot⟩
  | @registerReference _ q _ kind stored =>
    obtain ⟨rfl, hcarries⟩ := hA.carries stored htyped kind hr
    cases hcarries with
    | reference slot =>
      obtain ⟨a, ha⟩ := hA.referred slot rfl
      refine ⟨m, .nil m, .refl hrep, .memory ?_ ?_⟩
      · have hlocate : m.locate A.env (.register q) = a := by
          simp [locate, Address.register, hrep.handle slot ha]
        rw [hlocate]
        exact ha
      · rintro _ ⟨⟩
        exact .inr ⟨hs q (mem_parameterRegisters slot), hA.not_resident slot⟩
  | @frame _ δ _ kind stored =>
    obtain ⟨rfl, hcarries⟩ := hA.carries stored htyped kind hr
    cases hcarries with
    | value slot =>
      refine ⟨m, .nil m, .refl hrep, .memory ?_ ?_⟩
      · have hlocate :
            m.locate A.env (.frame δ) = A.base + BitVec.ofInt 64 δ + BitVec.ofInt 64 0 := by
          simp [locate, Address.frame, hrep.rbp]
        rw [hlocate]
        exact .mk (.inner slot) (.here _)
      · rintro _ ⟨⟩
        exact .inl rfl
  | @frameReference _ δ _ pointer _ kind stored claimed =>
    obtain ⟨rfl, hcarries⟩ := hA.carries stored htyped kind hr
    cases hcarries with
    | reference slot =>
      obtain ⟨a, ha⟩ := hA.referred slot rfl
      have hlocate : m.locate A.env (.frame δ) = A.base + BitVec.ofInt 64 δ := by
        simp [locate, Address.frame, hrep.rbp]
      have hload : m.exec A.env .mov [.reg pointer, .mem .qword (.frame δ)] =
          some (m.set pointer a) :=
        exec_load (n := 8) (.inr rfl) (by rw [hlocate, hrep.pointer slot ha])
      have hfree := (claimed.free pointer (by simp)).2
      refine ⟨_, .line hload, hrep.spare hA hs (.set claimed a), .memory ?_ ?_⟩
      · have hlocate' : (m.set pointer a).locate A.env (.register pointer) = a := by
          simp [locate, Address.register]
        rw [hlocate']
        exact ha
      · rintro _ ⟨⟩
        exact .inr ⟨(claimed.live pointer).2 (.inl (by simp)), hs.not_resident claimed (by simp)⟩
  | @field base name record δ ty' a temp code s' kind type field outer range =>
    obtain ⟨outerRegion, hpart, rfl⟩ := hr.of_field kind
    obtain ⟨htypedPart, rfl, -⟩ := htyped.of_field kind type field
    obtain ⟨m', hrun, hadvances, haddresses⟩ := hlower.place htypedPart outer hs hpart hrep
    cases haddresses with
    | memory located steady =>
      refine ⟨m', hrun, hadvances, .memory ?_ steady⟩
      have hlocate : m'.locate A.env { a with displacement := a.displacement + δ } =
          m'.locate A.env a + BitVec.ofInt 64 δ := by
        simp only [locate, BitVec.ofInt_add, BitVec.add_assoc]
      rw [hlocate]
      exact located.field field
  | element kind type size array position released =>
    rcases hr.kind with ⟨name, hk⟩ | ⟨base, name, hk⟩ <;> cases kind.symm.trans hk

/-! ### Operators -/

/-- The instruction of `++` and `--` changes the number in a register. -/
theorem exec_change (env : Environment) {op : UnaryOp} {n : Int64} (hop : op.isStep = true)
    (hq : m.regs q = (Value.int n).word) (hrsp : q ≠ .rsp) :
    m.exec env (change op) [.reg q, .imm 1] =
      some (m.set q (Value.int (op.stepped n)).word).clear := by
  have hone : m.argument (.imm 1) = some 1#64 := rfl
  cases op <;> cases hop
  case preIncrement.refl | postIncrement.refl =>
    rw [change, exec, Machine.combine, hone, hq]
    rfl
  case preDecrement.refl | postDecrement.refl =>
    show m.exec env .sub _ = _
    rw [exec_sub hrsp, Machine.combine, hone, hq]
    rfl

theorem yielded_of_stepsFirst {op : UnaryOp} (n : Int64) (h : stepsFirst op = true) :
    op.yielded n = op.stepped n := by
  cases op <;> cases h <;> rfl

theorem yielded_of_not_stepsFirst {op : UnaryOp} (n : Int64) (hop : op.isStep = true)
    (h : stepsFirst op = false) : op.yielded n = n := by
  cases op <;> cases hop <;> cases h <;> rfl

/-- A value that has been computed from a place is stored there. -/
theorem Stores.correct (hA : A.Of f) (hs : A.Claimed s) {u : State} {m₁ m₂ : Machine}
    {location : Location} {line : Line} (hadvances : A.Advances s σ m m₁)
    (haddresses : A.Addresses u m₁ location r ty)
    (hlive : ∀ q ∈ s.registers.live, q ∈ u.registers.live) (hspares : A.Spares u m₁ m₂)
    (hscalar : ty.isRecord = false) (hstores : Stores A.context ty q location line)
    (hq : m₂.regs q = v.word) (hv : v.Fits ty) :
    ∃ m', RunsTo A.env [line] m₂ m' ∧ A.Advances s (σ.set r v) m m' ∧
      ∀ p, ¬A.Resident p → m'.regs p = m₂.regs p := by
  have hsame : ∀ p ∈ u.registers.live, m₂.regs p = m₁.regs p := fun p hp =>
    hspares.regs p (.inl hp)
  have haddresses₂ : A.Addresses u m₂ location r ty :=
    haddresses.mono (hspares.regs _ (.inr (.inl rfl))) (fun p hp _ => hsame p hp) fun _ hp => hp
  have hrep₂ := (hadvances.represents.spare hA (hs.mono hlive) hspares).represents
  obtain ⟨m', hrun, hrep', hregs⟩ := haddresses₂.store hA hrep₂ hscalar hstores hq hv
  refine ⟨m', hrun, ⟨hrep', fun p hp hres => ?_⟩, hregs⟩
  rw [hregs p hres, hsame p (hlive p hp), hadvances.live p hp hres]

/-- `++` and `--` change the number in a place. -/
theorem StepShape.correct (hA : A.Of f) (hlower : Correct lower A)
    (hdisciplined : Disciplined lower A.context A.unit) {op : UnaryOp} {operand : NodeId}
    {n : Int64} (htyped : A.context.arena.Typed A.unit A.context.table A.context.info operand .int)
    (h : StepShape lower A.context op operand s q code s') (hop : op.isStep = true)
    (hs : A.Claimed s) (hr : A.scene.Denotes operand r) (hn : σ r = .int n)
    (hrep : A.Represents σ m) :
    ∃ m', RunsTo A.env code m m' ∧ A.Advances s (σ.set r (.int (op.stepped n))) m m' ∧
      m'.regs q = (Value.int (op.yielded n)).word := by
  have hfits : (Value.int (op.stepped n)).Fits .int := Value.HasType.fits (.int _)
  cases h with
  | @before ty' p c t _ load store order reads stores released =>
    obtain ⟨htype, ⟨u, hplace, hclaims⟩, hload⟩ := reads
    cases htype.symm.trans htyped.noted
    have hclaimed := hdisciplined.place htyped hplace
    have hboth := hclaimed.trans hclaims
    obtain ⟨m₁, hrun₁, hadvances, haddresses⟩ := hlower.place htyped hplace hs hr hrep
    obtain ⟨hrun₂, -⟩ := haddresses.load hadvances.represents rfl hload
    rw [hn] at hrun₂
    have hchange := exec_change A.env hop (regs_set_self m₁ q (Value.int n).word)
      (Register.ne_rsp_of_tracked hclaims.tracked)
    have hspares : A.Spares u m₁ ((m₁.set q (Value.int n).word).set q
        (Value.int (op.stepped n)).word).clear := .trans (.set hclaims _) (.clear (.set hclaims _))
    obtain ⟨m', hrun', hadvances', hregs⟩ := stores.correct hA hs hadvances haddresses
      (fun _ hp => hclaimed.mono hp) hspares rfl (regs_set_self _ q _) hfits
    refine ⟨m', hrun₁.append (hrun₂.append (.cons hchange hrun')), hadvances', ?_⟩
    rw [hregs q (hs.not_resident hboth (by simp)), yielded_of_stepsFirst n order]
    exact regs_set_self _ q _
  | @after ty' p c t t₁ t₂ _ load store updated order reads claimed stores dropped released =>
    obtain ⟨htype, ⟨u, hplace, hclaims⟩, hload⟩ := reads
    cases htype.symm.trans htyped.noted
    have hclaimed := hdisciplined.place htyped hplace
    have hboth := hclaimed.trans hclaims
    have hne : q ≠ updated := claimed.ne_of_live (by simp) ((hclaims.live q).2 (.inl (by simp)))
    obtain ⟨m₁, hrun₁, hadvances, haddresses⟩ := hlower.place htyped hplace hs hr hrep
    obtain ⟨hrun₂, -⟩ := haddresses.load hadvances.represents rfl hload
    rw [hn] at hrun₂
    obtain ⟨m₂, hm₂⟩ : ∃ m₂, m₂ = m₁.set q (Value.int n).word := ⟨_, rfl⟩
    obtain ⟨m₃, hm₃⟩ : ∃ m₃, m₃ = m₂.set updated (m₂.regs q) := ⟨_, rfl⟩
    have hvalue : m₂.regs q = (Value.int n).word := by rw [hm₂, regs_set_self]
    have hmove : RunsTo A.env [.move updated q] m₂ m₃ := hm₃ ▸ .line rfl
    have hchange := exec_change A.env hop
      (show m₃.regs updated = _ by rw [hm₃, regs_set_self, hvalue])
      (Register.ne_rsp_of_tracked claimed.tracked)
    have hspares : A.Spares u m₁ (m₃.set updated (Value.int (op.stepped n)).word).clear := by
      have hread : A.Spares u m₁ m₂ := hm₂ ▸ .set hclaims _
      have hcopied : A.Spares t m₂ m₃ := hm₃ ▸ .set claimed _
      exact hread.trans ((hcopied.trans (.clear (.set claimed _))).mono fun _ hp => hclaims.mono hp)
    obtain ⟨m', hrun', hadvances', hregs⟩ := stores.correct hA hs hadvances haddresses
      (fun _ hp => hclaimed.mono hp) hspares rfl (regs_set_self _ updated _) hfits
    refine ⟨m', hrun₁.append ((hm₂ ▸ hrun₂).append (hmove.append (.cons hchange hrun'))),
      hadvances', ?_⟩
    rw [hregs q (hs.not_resident hboth (by simp)), regs_clear, regs_set_of_ne _ _ hne, hm₃,
      regs_set_of_ne _ _ hne, hvalue, yielded_of_not_stepsFirst n hop order]

/-- The divisor is where it is expected. -/
theorem Clears.correct {rhs divisor : Register} (h : Clears s rhs divisor code s')
    (hlive : rhs ∈ s.registers.live) :
    ∃ m', RunsTo A.env code m m' ∧ A.Spares s m m' ∧ m'.regs divisor = m.regs rhs ∧
      divisor ≠ .rax := by
  cases h with
  | stays elsewhere => exact ⟨m, .nil m, ⟨fun _ _ => rfl, fun _ _ => rfl⟩, rfl, elsewhere⟩
  | moved inRax claimed released =>
    refine ⟨_, .line rfl, .set claimed _, regs_set_self _ _ _, ?_⟩
    exact (inRax ▸ claimed.ne_of_live (by simp) hlive).symm

/-- A division has a value when there is a quotient. -/
theorem exists_quotient {op : BinaryOp} {result : Register} {x y : Value}
    (hop : quotient? op = some result) (hv : op.value? x y = some v) :
    ∃ a b, x = .int a ∧ y = .int b ∧ Divides a b ∧ (result = .rax ∨ result = .rdx) ∧
      (if result = .rax then a / b else a % b).toBitVec = v.word := by
  cases op <;> cases hop <;> cases x <;> cases y <;>
    simp only [BinaryOp.value?, Option.ite_none_right_eq_some, Option.some.injEq,
      reduceCtorEq] at hv
  all_goals
    obtain ⟨hdivides, rfl⟩ := hv
    exact ⟨_, _, rfl, rfl, hdivides, by simp, rfl⟩

/-- Code behind the operands computes the value of an operator. -/
theorem OperatorShape.correct (hA : A.Of f) {op : BinaryOp} {lhs rhs : Register} {x y : Value}
    (h : OperatorShape op lhs rhs t code s') (hclaims : Claims [rhs, lhs] s t)
    (hrep : A.Represents σ m) (hx : m.regs lhs = x.word) (hy : m.regs rhs = y.word)
    (hv : op.value? x y = some v) :
    ∃ m', RunsTo A.env code m m' ∧ A.Spares s m m' ∧ m'.regs lhs = v.word := by
  obtain ⟨hscratch, hfree⟩ := hclaims.free lhs (by simp)
  have hrsp := Register.ne_rsp_of_tracked (Register.mem_tracked_of_scratch hscratch)
  cases h with
  | combine operator released =>
    refine ⟨_, .line (exec_combine operator hv hx hy hrsp), ?_, regs_set_self _ _ _⟩
    exact .of_regs hclaims (q := lhs) (by simp) rfl fun p hp => regs_set_of_ne _ _ hp
  | compare operator released =>
    obtain ⟨m', hrun, hvalue, hmem, hregs⟩ := exists_compare A.env operator hv hx hy
    exact ⟨m', hrun, .of_regs hclaims (by simp) hmem hregs, hvalue⟩
  | @divide result divisor c t' _ operator cleared released =>
    have hcleared := cleared.claims hclaims
    obtain ⟨m₁, hrun₁, hspares₁, hdivisor, hrax⟩ :=
      cleared.correct (A := A) (m := m) ((hclaims.live rhs).2 (.inl (by simp)))
    have hrsp₁ : m₁.regs .rsp = A.top := (hspares₁.regs _ (.inr (.inr rfl))).trans hrep.rsp
    have hx₁ : m₁.regs lhs = x.word :=
      (hspares₁.regs lhs (.inl ((hclaims.live lhs).2 (.inl (by simp))))).trans hx
    obtain ⟨a, b, rfl, rfl, hdivides, hresult, hword⟩ := exists_quotient operator hv
    obtain ⟨m', hrun, hvalue, hbelow, hregs⟩ :=
      exists_divide (decide (lhs ≠ .rax) && t'.registers.isLive .rax) (t'.registers.isLive .rdx)
        (by rw [hrsp₁]; exact hA.room) hscratch (hcleared.free divisor (by simp)).1 hrax
        (by simp +contextual) hresult hx₁ (hdivisor.trans hy) hdivides
    -- a register that is live before the operands is live here too, so the division saves it
    have hlive : ∀ p, p ∈ s.registers.live ∨ p = .rbp ∨ p = .rsp → p = .rax ∨ p = .rdx →
        t'.registers.isLive p = true := by
      rintro p (hp | rfl | rfl) hfixed
      · simpa [RegisterFile.isLive] using hcleared.mono hp
      · simp at hfixed
      · simp at hfixed
    have hspares : A.Spares s m₁ m' := by
      refine ⟨fun p hp => ?_, fun z hz => hbelow.mem z (by rwa [hrsp₁])⟩
      have hne : p ≠ lhs := hclaims.ne_of_kept (by simp) hp
      refine hregs p hne ?_ ?_
      · rintro rfl
        simp [hne.symm, hlive _ hp]
      · rintro rfl
        exact hlive _ hp (.inr rfl)
    exact ⟨m', hrun₁.append hrun, .trans (hspares₁.mono fun _ hp => hclaims.mono hp) hspares,
      hvalue.trans hword⟩

/-! ### Expressions -/

theorem fits_bool (b : Bool) : (Value.bool b).Fits ty := by
  intro n hn
  have hlt := Value.word_bool_lt b
  rcases Ty.scalarBytes_cases hn with rfl | rfl <;> simp only [Memory.capacity] <;> omega

/-- Any word fits where it takes all its bytes. -/
theorem fits_of_ne (h : ty ≠ .bool) : v.Fits ty := by
  intro n hn
  cases ty with
  | bool => exact absurd rfl h
  | void | record => cases hn
  | int | text | array =>
    cases hn
    exact BitVec.isLt _

/-- All bits of two words that fit into a type fit into it. -/
theorem fits_of_bits {x y : Value} {g : Word → Word → Word} (hg : g = (· &&& ·) ∨ g = (· ||| ·))
    (hword : v.word = g x.word y.word) (hx : x.Fits ty) (hy : y.Fits ty) : v.Fits ty := by
  intro n hn
  have hlt := hx n hn
  have hlt' := hy n hn
  rw [hword]
  rcases Ty.scalarBytes_cases hn with rfl | rfl
  · rcases hg with rfl | rfl
    · exact (BitVec.toNat_and ..).trans_lt (Nat.and_lt_two_pow (n := 32) _ hlt')
    · exact (BitVec.toNat_or ..).trans_lt (Nat.or_lt_two_pow (n := 32) hlt hlt')
  · exact BitVec.isLt _

/-- Operators keep values small enough for their type. -/
theorem fits_of_binary {op : BinaryOp} {l : Ty} {x y : Value} (hresult : op.result? l l = some ty)
    (hv : op.value? x y = some v) (hx : x.Fits l) (hy : y.Fits l) : v.Fits ty := by
  rw [BinaryOp.result?, if_pos rfl] at hresult
  cases op with
  | and =>
    obtain rfl : ty = l := by cases l <;> cases hresult <;> rfl
    refine fits_of_bits (.inl rfl) ?_ hx hy
    cases x <;> cases y <;> cases hv
    · rfl
    · exact Value.word_and ..
  | or =>
    obtain rfl : ty = l := by cases l <;> cases hresult <;> rfl
    refine fits_of_bits (.inr rfl) ?_ hx hy
    cases x <;> cases y <;> cases hv
    · rfl
    · exact Value.word_or ..
  | _ =>
    by_cases hty : ty = .bool
    · subst hty
      cases l <;> cases hresult <;> cases x <;> cases y <;> cases hv <;> exact fits_bool _
    · exact fits_of_ne hty

theorem ExpressionShape.correct (hA : A.Of f) (hlower : Correct lower A)
    (hdisciplined : Disciplined lower A.context A.unit)
    (htyped : A.context.arena.Typed A.unit A.context.table A.context.info id ty)
    (h : ExpressionShape lower A.context id s q code s') (hs : A.Claimed s)
    (heval : A.scene.Evaluates σ id v σ') (hrep : A.Represents σ m) :
    ∃ m', RunsTo A.env code m m' ∧ A.Advances s σ' m m' ∧ m'.regs q = v.word ∧ v.Fits ty := by
  cases h with
  | @constant value _ _ kind claimed =>
    have hvalue : σ' = σ ∧ v.word = value.toBitVec ∧ v.Fits ty := by
      rcases kind with hk | ⟨b, hk, rfl⟩
      · obtain ⟨rfl, rfl⟩ := heval.computes hk
        exact ⟨rfl, rfl, htyped.of_int hk ▸ fits_of_ne (by decide)⟩
      · obtain ⟨rfl, rfl⟩ := heval.computes hk
        exact ⟨rfl, by cases b <;> rfl, fits_bool b⟩
    obtain ⟨rfl, hword, hfits⟩ := hvalue
    refine ⟨m.set q value.toBitVec, .line rfl, hrep.spare hA hs (.set claimed _), ?_, hfits⟩
    rw [regs_set_self, hword]
  | text kind | call kind => exact (heval.computes kind).elim
  | @read k _ p _ _ _ _ _ kind place type scalar shape target load =>
    cases type.symm.trans htyped.noted
    obtain ⟨r, hr, rfl, rfl⟩ := heval.of_place kind place
    obtain ⟨m₁, hrun, hadvances, haddresses⟩ := shape.correct hA hlower htyped hs hr hrep
    obtain ⟨hload, hfits⟩ := haddresses.load hadvances.represents scalar load
    have hclaims := target.claims (shape.claims hdisciplined htyped)
    exact ⟨_, hrun.append hload, hadvances.spare hA hs (.set hclaims _), regs_set_self _ _ _, hfits⟩
  | sign kind part =>
    obtain ⟨n, hn, rfl⟩ := heval.computes kind
    obtain ⟨_, hpart⟩ := htyped.child kind (.head _)
    obtain ⟨m₁, hrun, hadvances, hvalue, -⟩ := hlower.expression hpart part hs hn hrep
    have hspares := Spares.set (A := A) (m := m₁) (hdisciplined.expression hpart part) (-m₁.regs q)
    refine ⟨_, hrun.append (.line rfl), hadvances.spare hA hs hspares.clear, ?_, ?_⟩
    · rw [regs_clear, regs_set_self, hvalue]
      rfl
    · obtain ⟨inner, -, hresult⟩ := htyped.of_unary kind
      cases inner <;> cases hresult
      exact fits_of_ne (by decide)
  | invert kind part =>
    obtain ⟨b, hb, rfl⟩ := heval.computes kind
    obtain ⟨_, hpart⟩ := htyped.child kind (.head _)
    obtain ⟨m₁, hrun, hadvances, hvalue, -⟩ := hlower.expression hpart part hs hb hrep
    have hspares := Spares.set (A := A) (m := m₁) (hdisciplined.expression hpart part)
      (m₁.regs q ^^^ 1#64)
    refine ⟨_, hrun.append (.line rfl), hadvances.spare hA hs hspares.clear, ?_, ?_⟩
    · rw [regs_clear, regs_set_self, hvalue, Value.word_not]
      rfl
    · exact fits_bool _
  | @step op operand _ _ _ kind isStep shape =>
    obtain ⟨r, n, hr, hn, rfl, rfl⟩ := heval.of_step kind isStep
    obtain ⟨inner, hinner, hresult⟩ := htyped.of_unary kind
    obtain ⟨rfl, rfl⟩ := UnaryOp.types_of_step isStep hresult
    obtain ⟨m', hrun, hadvances, hvalue⟩ :=
      shape.correct hA hlower hdisciplined hinner isStep hs hr hn hrep
    exact ⟨m', hrun, hadvances, hvalue, Value.HasType.fits (.int _)⟩
  | @binary op left right _ rhs c c' c'' t t' _ kind first second shape =>
    obtain ⟨x, y, σ₁, hx, hy, hv⟩ := heval.computes kind
    obtain ⟨l, hleft, hright, hresult⟩ := htyped.of_binary kind
    have hclaims := hdisciplined.expression hleft first
    have hboth := hclaims.trans (hdisciplined.expression hright second)
    obtain ⟨m₁, hrun₁, hadvances₁, hvalue₁, hfits₁⟩ := hlower.expression hleft first hs hx hrep
    obtain ⟨m₂, hrun₂, hadvances₂, hvalue₂, hfits₂⟩ :=
      hlower.expression hright second (hs.claims hclaims) hy hadvances₁.represents
    have hkept : m₂.regs q = x.word := by
      rw [hadvances₂.live q ((hclaims.live q).2 (.inl (by simp)))
        (hs.not_resident hclaims (by simp)), hvalue₁]
    obtain ⟨m', hrun, hspares, hvalue⟩ :=
      shape.correct hA hboth hadvances₂.represents hkept hvalue₂ hv
    have hadvances := hadvances₁.trans hadvances₂ fun _ hp => hclaims.mono hp
    exact ⟨m', hrun₁.append (hrun₂.append hrun), hadvances.spare hA hs hspares, hvalue,
      fits_of_binary hresult hv hfits₁ hfits₂⟩

/-- The code of expressions and places of any depth does what they mean. -/
theorem correct_atDepth (hA : A.Of f) (depth : Nat) : Correct (atDepth depth) A := by
  induction depth with
  | zero => exact ⟨fun _ h => (emits_fail.1 h).elim, fun _ h => (emits_fail.1 h).elim⟩
  | succ depth ih =>
    have hdisciplined := disciplined_atDepth hA.lowers.program depth
    exact ⟨fun htyped h => (expressionShape h).correct hA ih hdisciplined htyped,
      fun htyped h => (placeShape h).correct hA ih htyped⟩

/-- The code of a pure expression computes its value. The store behind the evaluation is the one
that the machine represents afterwards, and of the live registers only those of parameters that have
a new value change. Divisions without a quotient apart, there is such a value. -/
theorem expression_computes (hA : A.Of f) (hs : A.Claimed s)
    (htyped : A.context.arena.Typed A.unit A.context.table A.context.info id ty)
    (hpure : A.context.arena.Pure A.context.info id)
    (hcode : Emits ((ofArena A.context.arena).expression id) A.context s q code s')
    (hσ : A.Typed σ) (hrep : A.Represents σ m) (htraps : ¬A.scene.Traps σ id) :
    ∃ v σ' m', A.scene.Evaluates σ id v σ' ∧ RunsTo A.env code m m' ∧
      m'.regs q = v.word ∧ v.HasType ty ∧ A.Represents σ' m' ∧ A.Typed σ' ∧
      m'.regs .rsp = m.regs .rsp ∧ m'.regs .rbp = m.regs .rbp ∧
      ∀ p ∈ s.registers.live, m'.regs p = m.regs p ∨ A.Updated σ σ' p := by
  obtain htraps' | ⟨v, σ', hv, htype, hσ'⟩ :=
    (meaningful_atDepth hA _).expression htyped hcode hpure hσ
  · exact absurd htraps' htraps
  obtain ⟨m', hrun, hadvances, hvalue, -⟩ :=
    (correct_atDepth hA _).expression htyped hcode hs hv hrep
  refine ⟨v, σ', m', hv, hrun, hvalue, htype, hadvances.represents, hσ',
    hadvances.represents.rsp.trans hrep.rsp.symm, hadvances.represents.rbp.trans hrep.rbp.symm,
    fun p hp => ?_⟩
  by_cases hres : A.Resident p
  · obtain ⟨d, ty', hd⟩ := hres
    by_cases hsame : σ' (.whole (.inner d)) = σ (.whole (.inner d))
    · left
      rw [(hadvances.represents.register hd).1, (hrep.register hd).1, hsame]
    · exact .inr ⟨d, ty', hd, hsame⟩
  · exact .inl (hadvances.live p hp hres)

end Lowering

namespace Sample

open Gen Lowering Machine Activation

/-- The function while the remainder at its end is computed, with 17 and 5 as operands. -/
def activation : Activation where
  context := context
  unit := unit
  env := environment
  base := 4096#64
  top := 4096#64
  refers _ := .whole (.outer 0)
  outer _ := none

def values : Store := fun r =>
  .int (if r = .whole (.inner 2) then 17 else if r = .whole (.inner 8) then 5 else 0)

def operands : Machine where
  regs r := if r = .rsp ∨ r = .rbp then 4096#64 else if r = .rdi then 17#64 else 0#64
  mem x := if x = 4112#64 then 5 else 0

/-- What the program says about the remainder and its operands, and where the parameters are. -/
theorem facts_remainder : (unit.globals = [] ∧ arena.walk 28 = .ok [28, 26, 27] ∧
      arena.kind 29 = .ok (.ret (some 28)) ∧ arena.kind 28 = .ok (.binary .mod 26 27) ∧
      arena.kind 26 = .ok (.var "a") ∧ arena.kind 27 = .ok (.var "h") ∧
      (∀ x ∈ [28, 26, 27], info.typeOf x = some .int) ∧
      info.resolvedEntry 26 = some 7 ∧ info.resolvedEntry 27 = some 13 ∧
      (table.entry 7).toOption.map (·.meaning) = some (.var .int false (.parameter 0) 2) ∧
      (table.entry 13).toOption.map (·.meaning) = some (.var .int false (.parameter 6) 8)) ∧
    frame.slots = [(8, ⟨.frame 16, .int, false⟩), (7, ⟨.register .r9, .int, false⟩),
      (6, ⟨.register .r8, .int, false⟩), (5, ⟨.register .rcx, .int, false⟩),
      (4, ⟨.register .rdx, .int, false⟩), (3, ⟨.register .rsi, .int, false⟩),
      (2, ⟨.register .rdi, .int, false⟩)] ∧ frame.size = 0 ∧
    ∀ q ∈ frame.parameterRegisters, q ∈ state.registers.live := by
  decide +kernel

theorem slot_cases {d : NodeId} {slot : Slot} (h : frame.slot? d = some slot) :
    slot.isReference = false ∧ slot.ty = .int ∧ (d = 8 ∧ slot.storage = .frame 16 ∨
      ∃ q, slot.storage = .register q ∧ operands.regs q = (values (.whole (.inner d))).word) := by
  have hmem := Frame.mem_of_slot? h
  rw [facts_remainder.2.1] at hmem
  simp only [List.mem_cons, Prod.mk.injEq, List.not_mem_nil, or_false] at hmem
  rcases hmem with ⟨rfl, rfl⟩ | ⟨rfl, rfl⟩ | ⟨rfl, rfl⟩ | ⟨rfl, rfl⟩ | ⟨rfl, rfl⟩ | ⟨rfl, rfl⟩ |
    ⟨rfl, rfl⟩
  · exact ⟨rfl, rfl, .inl ⟨rfl, rfl⟩⟩
  all_goals exact ⟨rfl, rfl, .inr ⟨_, rfl, by decide⟩⟩

/-- Only the last parameter is in memory. -/
theorem located_cases {r : Region} {ty : Ty} {a : Word} (h : activation.Located r ty a) :
    r = .whole (.inner 8) ∧ ty = .int ∧ a = 4112#64 := by
  cases h with
  | mk placed leads =>
    cases placed with
    | global mem => simp [activation, facts_remainder.1.1] at mem
    | outer given => cases given
    | inner slot =>
      obtain ⟨-, rfl, ⟨rfl, hstorage⟩ | ⟨q, hstorage, -⟩⟩ := slot_cases slot
      · cases hstorage
        obtain rfl := leads.eq_nil rfl
        cases leads
        exact ⟨rfl, rfl, rfl⟩
      · cases hstorage

theorem occupies_inner {r : Region} {a : Word} {n : Nat} (h : activation.Occupies r a n) :
    r.object = .inner 8 := by
  cases h with
  | scalar located => rw [(located_cases located).1]; rfl
  | pointer slot => cases (slot_cases slot).1

theorem native_activation {r : Region} {a : Word} {n : Nat} (h : activation.Occupies r a n) :
    activation.Native r := by
  refine ⟨by rw [occupies_inner h]; rfl, ?_⟩
  show frame.size < _
  rw [facts_remainder.2.2.1]
  decide

theorem of_activation : activation.Of function := by
  refine ⟨⟨?_, ⟨30, function_mem, kind_function⟩,
    layout_function⟩, by decide, ?_, by decide, ?_, ?_, ?_, ?_⟩
  · exact accepted.checked_of_unit unit?_arena
  · show 4096 + frame.size ≤ 4096
    rw [facts_remainder.2.2.1]
  · intro d slot hslot href
    exact absurd (slot_cases hslot).1 (by simp [href])
  · intro o ty a h hinner
    cases h with
    | global mem => simp [activation, facts_remainder.1.1] at mem
    | outer given => cases given
    | inner => cases hinner
  · intro r r' a a' n n' h h' hne
    exact absurd ((occupies_inner h).trans (occupies_inner h').symm) hne
  · intro r a n h hnot
    exact absurd (native_activation h) hnot

theorem represents_operands : activation.Represents values operands := by
  refine ⟨rfl, rfl, ?_, ?_, ?_, ?_⟩
  · intro r ty a n h hn
    obtain ⟨rfl, rfl, rfl⟩ := located_cases h
    cases hn
    decide
  · intro d q ty hd
    obtain ⟨-, rfl, ⟨-, hstorage⟩ | ⟨q', hstorage, hvalue⟩⟩ := slot_cases hd
    · cases hstorage
    · cases hstorage
      exact ⟨hvalue, fits_of_ne (by decide)⟩
  · intro d δ ty a hd
    cases (slot_cases hd).1
  · intro d q ty a hd
    cases (slot_cases hd).1

theorem typed_values : activation.Typed values := by
  intro r ty h _
  have hty : ty = .int := by
    cases h with
    | memory located => exact (located_cases located).2.1
    | register slot => exact (slot_cases slot).2.1
  exact hty ▸ .int _

/-- What is emitted for the remainder. -/
def remainder : Output Register :=
  ((ofArena arena).expression 28 context state).toOption.get (by decide +kernel)

theorem emits_remainder : Emits ((ofArena arena).expression 28) context state remainder.value
    remainder.code remainder.state := by
  have h : (ofArena arena).expression 28 context state = .ok remainder :=
    Outcome.ok_get_toOption _
  generalize remainder = output at h ⊢
  exact h

theorem typed_remainder : arena.Typed unit table info 28 .int := by
  obtain ⟨-, -, hreturn, hkind, -, -, hnoted, -⟩ := facts_remainder.1
  obtain ⟨ty, hty⟩ :=
    of_activation.lowers.typed (.tail _ (.head _)) (.child hreturn (.head _) (.self 28)) hkind rfl
  cases (hnoted 28 (.head _)).symm.trans hty.noted
  exact hty

theorem pure_remainder : arena.Pure info 28 := by
  obtain ⟨-, hwalk, -, hkind, hleft, hright, hnoted, -⟩ := facts_remainder.1
  intro x hx
  have hmem := (Arena.mem_walk hwalk x).2 hx
  refine ⟨by simp [hnoted x hmem], fun k hk => ?_⟩
  simp only [List.mem_cons, List.not_mem_nil, or_false] at hmem
  rcases hmem with rfl | rfl | rfl
  · cases hkind.symm.trans hk
    rfl
  · cases hleft.symm.trans hk
    rfl
  · cases hright.symm.trans hk
    rfl

/-- The operands are the first and the last parameter. -/
theorem denotes_operands : activation.scene.Denotes 26 (.whole (.inner 2)) ∧
    activation.scene.Denotes 27 (.whole (.inner 8)) := by
  obtain ⟨-, -, -, -, hleft, hright, -, hresolved, hresolved', hentry, hentry'⟩ := facts_remainder.1
  obtain ⟨x, hx, hmeaning⟩ := Option.map_eq_some_iff.1 hentry
  obtain ⟨y, hy, hmeaning'⟩ := Option.map_eq_some_iff.1 hentry'
  exact ⟨.inner hleft hresolved (Outcome.eq_ok_of_toOption hx) hmeaning (by simp),
    .inner hright hresolved' (Outcome.eq_ok_of_toOption hy) hmeaning' (by simp)⟩

theorem claimed_parameters : activation.Claimed state := facts_remainder.2.2.2

theorem evaluates_remainder : activation.scene.Evaluates values 28 (.int 2) values := by
  obtain ⟨-, -, -, hkind, -, -, hnoted, -⟩ := facts_remainder.1
  exact .binary hkind (.read (hnoted 26 (by decide)) rfl denotes_operands.1)
    (.read (hnoted 27 (by decide)) rfl denotes_operands.2) (by decide)

/-- The remainder of 17 and 5 is 2, with the third parameter kept in `rdx`. -/
theorem remainder_computes : ∃ m', RunsTo environment remainder.code operands m' ∧
    m'.regs remainder.value = 2#64 ∧ m'.regs .rdx = operands.regs .rdx := by
  obtain ⟨v, σ', m', hv, hrun, hvalue, -, -, -, -, -, hlive⟩ :=
    @expression_computes activation function state remainder.state values operands 28 .int
      remainder.value remainder.code of_activation claimed_parameters typed_remainder
      pure_remainder emits_remainder typed_values represents_operands evaluates_remainder.not_traps
  obtain ⟨rfl, rfl⟩ := evaluates_remainder.unique hv
  refine ⟨m', hrun, hvalue, ?_⟩
  rcases hlive .rdx (by decide) with hsame | ⟨d, ty, -, hne⟩
  · exact hsame
  · exact absurd rfl hne

end Sample

end MiniJ
