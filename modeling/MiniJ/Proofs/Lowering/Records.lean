import MiniJ.Proofs.Lowering.Evaluation
import MiniJ.Proofs.Lowering.Slots
import MiniJ.Proofs.Lowering.Transfers

/-!
# Records in the store

The code that goes through the cells of a value changes the store one scalar at a time. When it is
done, copying has given one region the values of another, and clearing has given a variable the
values that it has when its declaration runs.

## Main statements

* `Lowering.Traverses.represents` — code that goes through a value and writes every scalar of it.
* `Activation.Represents.copyRecord` — records are copied.
* `Activation.Represents.declareLocal` — variables are cleared.
-/
namespace MiniJ

/-! ### Regions inside of others -/

namespace Region

variable {r : Region} {p q : List String}

@[simp] theorem inside_nil (r : Region) : r.inside [] = r := by simp [inside]

end Region

/-- What a path leads to has the type that is found along it. -/
theorem SymbolTable.Leads.typeAlong {t : SymbolTable} {ty ty' : Ty} {path : List String} {δ : Int}
    (h : t.Leads ty path δ ty') : t.typeAlong ty path = ty' := by
  induction h with
  | here ty => cases ty <;> rfl
  | @field record name δ δ' inner ty path found _ ih =>
    cases hfields : t.lookupRecord record with
    | error e =>
      rw [SymbolTable.field, hfields] at found
      cases found
    | ok fields? =>
      cases fields? with
      | none =>
        rw [SymbolTable.field, hfields] at found
        cases found
      | some fields =>
        obtain ⟨f, hf, rfl⟩ := field_find hfields found
        rw [SymbolTable.typeAlong, hfields]
        simp only [hf]
        exact ih

namespace Activation

variable {A : Activation} {f : FunctionNode} {r r' x : Region} {ty ty' : Ty} {a a' : Word}
  {path : List String} {δ : Int} {name : String}

theorem Located.inside (h : A.Located r ty a) (leads : A.context.table.Leads ty path δ ty') :
    A.Located (r.inside path) ty' (a + BitVec.ofInt 64 δ) := by
  cases h with
  | mk placed leads' =>
    rw [BitVec.add_assoc, ← BitVec.ofInt_add]
    exact .mk placed (leads'.append leads)

/-- A path leads to everything that is located inside of a region. -/
theorem Located.leads (h : A.Located r ty a) (h' : A.Located (r.inside path) ty' a') :
    ∃ δ, A.context.table.Leads ty path δ ty' ∧ a' = a + BitVec.ofInt 64 δ := by
  cases h with
  | mk placed leads =>
    generalize hinside : Region.inside _ path = r' at h'
    cases h' with
    | mk placed' leads' =>
      cases hinside
      obtain ⟨rfl, rfl⟩ := placed.unique placed'
      obtain ⟨mid, δ₁, δ₂, hfirst, hsecond, rfl⟩ := leads'.split
      obtain ⟨rfl, rfl⟩ := leads.unique hfirst
      exact ⟨δ₂, hsecond, by rw [BitVec.add_assoc, ← BitVec.ofInt_add]⟩

/-- A record that is located somewhere has a size. -/
theorem Located.sized (hA : A.Of f) (h : A.Located r (.record name) a) :
    ∃ N, A.context.table.sizeOf (.record name) = .ok (some N) := by
  obtain ⟨taken, -, hsound, -⟩ := hA.lowers.frame_sound
  have hplaced : ∀ {o whole b path δ}, A.Placed o whole b →
      A.context.table.Leads whole path δ (.record name) →
      ∃ N, A.context.table.sizeOf whole = .ok (some N) := by
    intro o whole b path δ hplaced hleads
    cases hplaced with
    | global mem kind => exact hA.sized (.global mem kind) rfl
    | outer given => exact hA.sized (.outer given) rfl
    | inner slot =>
      cases hsound.placed _ (Frame.mem_of_slot? slot) with
      | register storage => cases storage
      | above storage earlier word =>
        have hscalar : whole.isRecord = false := word.resolve_left Bool.false_ne_true
        obtain rfl := hleads.eq_nil hscalar
        cases hleads
        cases hscalar
      | below storage takes => exact ⟨_, by simpa [Slot.Takes] using takes⟩
  cases h with
  | mk placed leads =>
    obtain ⟨N, hN⟩ := hplaced placed leads
    obtain ⟨before, k, -, hk, -⟩ := leads.inside hN
    exact ⟨k, hk⟩

/-- No record has a part of its own type: what lies in two of them lies in one. -/
theorem Located.eq_of_covers (hA : A.Of f) (h : A.Located r (.record name) a)
    (h' : A.Located r' (.record name) a') (hr : r.Covers x) (hr' : r'.Covers x) : r = r' := by
  obtain ⟨N, hN⟩ := h.sized hA
  have hbegins : ∀ {r r' : Region} {a a' : Word}, A.Located r (.record name) a →
      A.Located r' (.record name) a' → r.object = r'.object → r.path <+: r'.path → r = r' := by
    rintro ⟨o, p⟩ ⟨o', p'⟩ a a' h h' rfl ⟨rest, rfl⟩
    obtain ⟨δ, hleads, -⟩ : ∃ δ, A.context.table.Leads (.record name) rest δ (.record name) ∧
        a' = a + BitVec.ofInt 64 δ := h.leads h'
    rw [hleads.eq_nil_of_record hN, List.append_nil]
  obtain ⟨hobject, hpath⟩ := Region.covers_iff.1 hr
  obtain ⟨hobject', hpath'⟩ := Region.covers_iff.1 hr'
  rcases List.prefix_or_prefix_of_prefix hpath hpath' with hle | hle
  · exact hbegins h h' (hobject.symm.trans hobject') hle
  · exact (hbegins h' h (hobject'.symm.trans hobject) hle).symm

/-- A variable in a register is no part of anything that is located. -/
theorem Located.not_covers_register {d : NodeId} {q : Register} {ref : Bool} (h : A.Located r ty a)
    (hd : A.context.frame.slot? d = some ⟨.register q, ty', ref⟩) :
    ¬r.Covers (.whole (.inner d)) := by
  rintro ⟨path, hpath⟩
  refine h.ne_of_register hd ?_
  obtain ⟨o, p⟩ := r
  simp only [Region.whole, Region.inside, Region.mk.injEq, List.nil_eq_append_iff] at hpath
  obtain ⟨rfl, rfl, -⟩ := hpath
  rfl

/-- No part of the store depends on the register. -/
def Unused (A : Activation) (q : Register) : Prop :=
  q ∉ A.context.frame.parameterRegisters ∧ q ≠ .rbp ∧ q ≠ .rsp

theorem Claimed.unused {s t : Gen.State} {rs : List Register} {q : Register} (h : A.Claimed s)
    (hclaims : Gen.Claims rs s t) (hq : q ∈ rs) : A.Unused q :=
  have hkept := fun {p} hp => (hclaims.ne_of_kept (p := p) hq hp).symm
  ⟨fun hin => hkept (.inl (h q hin)) rfl, hkept (.inr (.inl rfl)), hkept (.inr (.inr rfl))⟩

theorem Represents.set {σ : Store} {m : Machine} {q : Register} (hA : A.Of f)
    (h : A.Represents σ m) (hunused : A.Unused q) (w : Word) : A.Represents σ (m.set q w) := by
  refine h.quiet hA ⟨fun p hp => Machine.regs_set_of_ne _ _ ?_, fun _ _ => rfl⟩
  rintro rfl
  exact hp.elim hunused.1 fun hp => hp.elim hunused.2.1 hunused.2.2

end Activation

namespace Lowering

open Gen Machine Activation SymbolTable

variable {α : Type} {A : Activation} {f : FunctionNode} {visit : Nat → Ty → α → Gen Unit}
  {shift : α → Int → α} {reachable : α → Int → Prop} {lines : Width → α → List Line} {base : α}
  {σ τ T : Store} {K : Machine → Prop} {dst : Region} {whole ty : Ty} {path : List String} {δ : Int}
  {N depth : Nat} {s s' : State} {code : List Line} {m : Machine}

/-- The lines for a scalar write it: the store becomes more like another one. -/
def Writes (A : Activation) (lines : Width → α → List Line) (shift : α → Int → α) (base : α)
    (K : Machine → Prop) (σ T : Store) (dst : Region) (whole : Ty) : Prop :=
  ∀ {path δ ty n τ m}, A.context.table.Leads whole path δ ty → ty.scalarBytes = some n →
    (∀ r, τ r = T r ∨ τ r = σ r) → A.Represents τ m → K m →
    ∃ m', RunsTo A.env (lines (.ofSize n) (shift base δ)) m m' ∧
      A.Represents (τ.set (dst.inside path) (T (dst.inside path))) m' ∧ K m'

/-- The scalars behind a path, along some paths from there, have been written, and nothing else. -/
structure Written (A : Activation) (K : Machine → Prop) (T τ : Store) (dst : Region)
    (path : List String) (P : List String → Prop) (code : List Line) (m m' : Machine) (τ' : Store) :
    Prop where
  run : RunsTo A.env code m m'
  represents : A.Represents τ' m'
  keeps : K m'
  either : ∀ r, τ' r = T r ∨ τ' r = τ r
  done : ∀ p, P p → τ' (dst.inside (path ++ p)) = T (dst.inside (path ++ p))

/-- The paths through a value of a type that end at a scalar. -/
def ToScalar (t : SymbolTable) (ty : Ty) (p : List String) : Prop :=
  ∃ δ leaf n, t.Leads ty p δ leaf ∧ leaf.scalarBytes = some n

section Written

variable {P Q : List String → Prop} {code' : List Line} {m₁ m₂ : Machine} {τ₁ τ₂ : Store}

theorem Written.mono (h : Written A K T τ dst path P code m m₁ τ₁) (hle : ∀ p, Q p → P p) :
    Written A K T τ dst path Q code m m₁ τ₁ :=
  ⟨h.run, h.represents, h.keeps, h.either, fun p hp => h.done p (hle p hp)⟩

theorem Written.nil (hrep : A.Represents τ m) (hK : K m) :
    Written A K T τ dst path (fun _ => False) [] m m τ :=
  ⟨.nil m, hrep, hK, fun _ => .inr rfl, fun _ hp => hp.elim⟩

theorem Written.append (h : Written A K T τ dst path P code m m₁ τ₁)
    (h' : Written A K T τ₁ dst path Q code' m₁ m₂ τ₂) :
    Written A K T τ dst path (fun p => P p ∨ Q p) (code ++ code') m m₂ τ₂ := by
  refine ⟨h.run.append h'.run, h'.represents, h'.keeps,
    fun r => (h'.either r).elim .inl fun heq => heq ▸ h.either r, fun p hp => ?_⟩
  exact hp.elim (fun hp => (h'.either _).elim id fun heq => heq.trans (h.done p hp)) (h'.done p)

/-- What has been written behind a field. -/
theorem Written.field {name : String} (h : Written A K T τ dst (path ++ [name]) P code m m₁ τ₁) :
    Written A K T τ dst path (fun p => ∃ rest, p = name :: rest ∧ P rest) code m m₁ τ₁ := by
  refine ⟨h.run, h.represents, h.keeps, h.either, ?_⟩
  rintro _ ⟨rest, rfl, hp⟩
  have hdone := h.done rest hp
  rwa [List.append_assoc, List.singleton_append] at hdone

end Written

/-- A scalar is written at once. -/
theorem Traverses.written_scalar (h : Traverses A.context visit shift reachable lines)
    (hwrites : Writes A lines shift base K σ T dst whole)
    (hN : A.context.table.sizeOf whole = .ok (some N))
    (hleads : A.context.table.Leads whole path δ ty) (hplain : ty.isRecord = false)
    (hemits : Emits (visit depth ty (shift base δ)) A.context s () code s')
    (hτ : ∀ r, τ r = T r ∨ τ r = σ r) (hrep : A.Represents τ m) (hK : K m) :
    ∃ m' τ', Written A K T τ dst path (ToScalar A.context.table ty) code m m' τ' := by
  obtain ⟨before, n, -, hn, -⟩ := hleads.inside hN
  obtain ⟨rfl, rfl⟩ := (h.scalar hplain hn).1 hemits
  have hbytes := scalarBytes_iff.2 ⟨hn, hplain⟩
  obtain ⟨m', hrun, hrep', hK'⟩ := hwrites hleads hbytes hτ hrep hK
  refine ⟨m', _, hrun, hrep', hK', fun r => ?_, ?_⟩
  · by_cases heq : r = dst.inside path
    · exact .inl (heq ▸ Store.set_self ..)
    · exact .inr (Store.set_of_ne _ _ heq)
  · rintro p ⟨δ', leaf, n', hp, -⟩
    rw [hp.eq_nil hplain, List.append_nil, Store.set_self]

/-- Fields are written one after the other. -/
theorem Traverses.written_fields {step : Int × Ty → Gen Unit} {name : String} {fields : List Field}
    {found : List (Int × Ty)} (h : Traverses A.context visit shift reachable lines)
    (hstep : ∀ {p s code s'}, Emits (step p) A.context s () code s' ↔
      reachable (shift base δ) p.1 ∧
        Emits (visit depth p.2 (shift (shift base δ) p.1)) A.context s () code s')
    (hwritten : ∀ {path δ ty s s' code τ m}, A.context.table.Leads whole path δ ty →
      Emits (visit depth ty (shift base δ)) A.context s () code s' →
      (∀ r, τ r = T r ∨ τ r = σ r) → A.Represents τ m → K m →
      ∃ m' τ', Written A K T τ dst path (ToScalar A.context.table ty) code m m' τ')
    (hleads : A.context.table.Leads whole path δ (.record name))
    (hnamed : List.Forall₂ (fun f e => A.context.table.field name f.name = .ok (some e) ∧
      e.2 = f.ty)
      fields found)
    (hemits : Emits (found.forM step) A.context s () code s')
    (hτ : ∀ r, τ r = T r ∨ τ r = σ r) (hrep : A.Represents τ m) (hK : K m) :
    ∃ m' τ', Written A K T τ dst path (fun p => ∃ g ∈ fields, ∃ e rest,
      A.context.table.field name g.name = .ok (some e) ∧ p = g.name :: rest ∧
        ToScalar A.context.table e.2 rest) code m m' τ' := by
  induction hnamed generalizing s s' code τ m with
  | nil =>
    obtain ⟨rfl, rfl⟩ := emits_forM_nil.1 hemits
    exact ⟨m, τ, (Written.nil hrep hK).mono (by simp)⟩
  | @cons g e fields found hg _ ih =>
    obtain ⟨c, t, c', hfirst, hothers, rfl⟩ := emits_forM_cons.1 hemits
    have hvalue := (hstep.1 hfirst).2
    rw [h.shift_shift] at hvalue
    obtain ⟨m₁, τ₁, hone⟩ := hwritten (hleads.snoc hg.1) hvalue hτ hrep hK
    have hτ₁ : ∀ r, τ₁ r = T r ∨ τ₁ r = σ r := fun r =>
      (hone.either r).elim .inl fun heq => heq ▸ hτ r
    obtain ⟨m₂, τ₂, hrest⟩ := ih hothers hτ₁ hone.represents hone.keeps
    refine ⟨m₂, τ₂, (hone.field.append hrest).mono ?_⟩
    rintro _ ⟨g', hg', e', rest, hfield, rfl, hscalar⟩
    rcases List.mem_cons.1 hg' with rfl | hg'
    · cases hg.1.symm.trans hfield
      exact .inl ⟨rest, rfl, hscalar⟩
    · exact .inr ⟨g', hg', e', rest, hfield, rfl, hscalar⟩

/-- Going through a value writes every scalar of it. -/
theorem Traverses.written (h : Traverses A.context visit shift reachable lines)
    (hdistinct : ∀ record fields, A.context.table.lookupRecord record = .ok (some fields) →
      (fields.map Field.name).Nodup)
    (hwrites : Writes A lines shift base K σ T dst whole)
    (hN : A.context.table.sizeOf whole = .ok (some N))
    (hleads : A.context.table.Leads whole path δ ty)
    (hemits : Emits (visit depth ty (shift base δ)) A.context s () code s')
    (hτ : ∀ r, τ r = T r ∨ τ r = σ r) (hrep : A.Represents τ m) (hK : K m) :
    ∃ m' τ', Written A K T τ dst path (ToScalar A.context.table ty) code m m' τ' := by
  induction depth generalizing path δ ty s s' code τ m with
  | zero =>
    cases hrecord : ty.isRecord with
    | true =>
      obtain ⟨name, rfl⟩ := Ty.exists_of_isRecord hrecord
      exact absurd hemits h.limit
    | false => exact h.written_scalar hwrites hN hleads hrecord hemits hτ hrep hK
  | succ depth ih =>
    cases hrecord : ty.isRecord with
    | false => exact h.written_scalar hwrites hN hleads hrecord hemits hτ hrep hK
    | true =>
      obtain ⟨name, rfl⟩ := Ty.exists_of_isRecord hrecord
      obtain ⟨before, k, -, hk, -⟩ := hleads.inside hN
      obtain ⟨fields, found, hfields, hfound, hnamed⟩ := exists_fields_named hk (hdistinct name)
      obtain ⟨step, hvisit, hstep⟩ := h.record (d := depth) (a := shift base δ) hfound
      obtain ⟨m', τ', hall⟩ :=
        h.written_fields hstep ih hleads hnamed (hvisit.1 hemits) hτ hrep hK
      refine ⟨m', τ', hall.mono ?_⟩
      rintro p ⟨δ', leaf, n, hp, hn⟩
      cases hp with
      | here => cases hn
      | @field _ field _ _ inner _ rest lookup behind =>
        obtain ⟨g, hg, -⟩ := field_find hfields lookup
        obtain rfl : g.name = field := by simpa using List.find?_some hg
        exact ⟨g, List.mem_of_find?_eq_some hg, _, rest, lookup, rfl, _, leaf, n, behind, hn⟩

/-- Code that goes through all of a value makes the store what it should be there. -/
theorem Traverses.represents (h : Traverses A.context visit shift reachable lines)
    (hdistinct : ∀ record fields, A.context.table.lookupRecord record = .ok (some fields) →
      (fields.map Field.name).Nodup)
    (hwrites : Writes A lines shift base K σ T dst whole)
    (hN : A.context.table.sizeOf whole = .ok (some N)) {b : Word} (hdst : A.Located dst whole b)
    (hoff : ∀ r, ¬dst.Covers r → T r = σ r)
    (hemits : Emits (visit depth whole base) A.context s () code s') (hrep : A.Represents σ m)
    (hK : K m) : ∃ m', RunsTo A.env code m m' ∧ A.Represents T m' ∧ K m' := by
  have hstart : Emits (visit depth whole (shift base 0)) A.context s () code s' := by
    rwa [h.shift_zero]
  obtain ⟨m', τ', hwritten⟩ :=
    h.written hdistinct hwrites hN (.here whole) hstart (fun _ => .inr rfl) hrep hK
  have hother : ∀ r, ¬dst.Covers r → T r = τ' r := fun r hr =>
    (hwritten.either r).elim Eq.symm fun heq => (hoff r hr).trans heq.symm
  refine ⟨m', hwritten.run, hwritten.represents.congr (fun {r ty a n} hr hn => ?_)
    fun {d q ty} hd => hother _ (hdst.not_covers_register hd), hwritten.keeps⟩
  by_cases hcovers : dst.Covers r
  · obtain ⟨p, rfl⟩ := hcovers
    obtain ⟨δ, hleads, -⟩ := hdst.leads hr
    have hdone := hwritten.done p ⟨δ, ty, n, hleads, hn⟩
    rw [List.nil_append] at hdone
    exact hdone.symm
  · exact hother r hcovers

end Lowering

namespace Activation.Represents

open Gen Machine Lowering SymbolTable

variable {A : Activation} {f : FunctionNode} {σ : Store} {m : Machine} {s s' : State}
  {code : List Line} {id d : NodeId} {ty : Ty}

/-- A record is copied from one region to another, through a register that holds nothing. -/
theorem copyRecord (hA : A.Of f)
    (hdistinct : ∀ record fields, A.context.table.lookupRecord record = .ok (some fields) →
      (fields.map Field.name).Nodup)
    (hrep : A.Represents σ m) {q : Register} {source target : Address} {src dst : Region}
    {name : String} (hunused : A.Unused q)
    (hsrc : A.Located src (.record name) (m.locate A.env source))
    (hdst : A.Located dst (.record name) (m.locate A.env target))
    (hsource : source.base ≠ .register q) (htarget : target.base ≠ .register q)
    (hemits : Emits (Lowering.copyRecord name source target q id) A.context s () code s') :
    ∃ m', RunsTo A.env code m m' ∧ A.Represents (σ.copy dst src) m' ∧
      ∀ p, p ≠ q → m'.regs p = m.regs p := by
  have hlocate : ∀ {m' : Machine} {a : Address} {δ : Int}, a.base ≠ .register q →
      (∀ p, p ≠ q → m'.regs p = m.regs p) →
      m'.locate A.env (a.plus δ) = m.locate A.env a + BitVec.ofInt 64 δ := by
    intro m' a δ hbase hregs
    unfold locate Address.plus
    rw [BitVec.ofInt_add, ← BitVec.add_assoc]
    cases hcase : a.base with
    | symbol name => rfl
    | register p =>
      have hne : p ≠ q := by
        rintro rfl
        exact hbase hcase
      simp only [hregs p hne]
  have hsame : ∀ path, σ.copy dst src (src.inside path) = σ (src.inside path) := by
    intro path
    by_cases hcovers : dst.Covers (src.inside path)
    · obtain rfl := hdst.eq_of_covers hA hsrc hcovers ⟨path, rfl⟩
      exact Store.copy_inside ..
    · exact Store.copy_of_not_covers _ hcovers
  have hwrites : Writes A
      (fun w p =>
        [.instruction .mov [.sized w q, .mem w p.1], .instruction .mov [.mem w p.2, .sized w q]])
      (fun p δ => (p.1.plus δ, p.2.plus δ)) (source, target)
      (fun m' => ∀ p, p ≠ q → m'.regs p = m.regs p) σ (σ.copy dst src) dst (.record name) := by
    intro path δ ty n τ m₁ hleads hn hτ hrep₁ hregs
    have hvalue : σ.copy dst src (dst.inside path) = τ (src.inside path) := by
      rw [Store.copy_inside]
      exact ((hτ _).elim (fun heq => heq.trans (hsame path)) fun heq => heq).symm
    have hread := hrep₁.scalar (hsrc.inside hleads) hn
    have hfits : (τ (src.inside path)).Fits ty := by
      intro k hk
      cases hn.symm.trans hk
      rw [← hread]
      exact Memory.read_lt _ _ _
    rw [← hlocate hsource hregs] at hread
    have hload := exec_load (r := q) (Ty.scalarBytes_cases hn) hread
    have hregs₂ : ∀ p, p ≠ q → (m₁.set q (τ (src.inside path)).word).regs p = m.regs p :=
      fun p hp => (regs_set_of_ne _ _ hp).trans (hregs p hp)
    have hrep₂ := hrep₁.set hA hunused (τ (src.inside path)).word
    have hstore : exec A.env _ .mov [.mem (.ofSize n) (target.plus δ), .sized (.ofSize n) q] = _ :=
      exec_store_word (Ty.scalarBytes_cases hn) (regs_set_self m₁ q (τ (src.inside path)).word)
        (hfits n hn)
    refine ⟨_, .cons hload (.line hstore), ?_, hregs₂⟩
    rw [hvalue, hlocate htarget hregs₂]
    exact hrep₂.write hA (hdst.inside hleads) hn hfits
  obtain ⟨N, hN⟩ := hdst.sized hA
  exact traverses_copy.represents hdistinct hwrites hN hdst (fun r hr =>
    Store.copy_of_not_covers _ hr)
    (emits_context_bind.1 hemits) hrep fun _ _ => rfl

/-- A variable gets the values that it has when its declaration runs. -/
theorem declareLocal (hA : A.Of f)
    (hdistinct : ∀ record fields, A.context.table.lookupRecord record = .ok (some fields) →
      (fields.map Field.name).Nodup)
    (hrep : A.Represents σ m) {δ : Int} {N : Nat}
    (hslot : A.context.frame.slot? d = some ⟨.frame δ, ty, false⟩)
    (hN : A.context.table.sizeOf ty = .ok (some N))
    (hemits : Emits (Lowering.declareLocal d) A.context s () code s') :
    ∃ m', RunsTo A.env code m m' ∧
      A.Represents (σ.fill (.inner d) (A.context.table.zeros ty)) m' ∧ m'.regs = m.regs := by
  have hdst : A.Located (.whole (.inner d)) ty (A.base + BitVec.ofInt 64 δ + BitVec.ofInt 64 0) :=
    .mk (.inner hslot) (.here ty)
  have hlocate : ∀ {m' : Machine} {δ' : Int}, m'.regs = m.regs →
      m'.locate A.env ((Address.frame δ).plus δ') =
        A.base + BitVec.ofInt 64 δ + BitVec.ofInt 64 0 + BitVec.ofInt 64 δ' := by
    intro m' δ' hregs
    simp [locate, Address.plus, Address.frame, hregs, hrep.rbp, BitVec.ofInt_add, BitVec.add_assoc]
  have hwrites : Writes A (fun w a => [.instruction .mov [.mem w a, .imm 0]]) Address.plus
      (.frame δ)
      (fun m' => m'.regs = m.regs) σ (σ.fill (.inner d) (A.context.table.zeros ty))
      (.whole (.inner d)) ty := by
    intro path δ' ty' n τ m₁ hleads hn _ hrep₁ hregs
    have hvalue : σ.fill (.inner d) (A.context.table.zeros ty) ((Region.whole (.inner d)).inside
        path) = .zero ty' := by
      rw [← hleads.typeAlong]
      exact Store.fill_of_eq ..
    have hexec : m₁.exec A.env .mov [.mem (.ofSize n) ((Address.frame δ).plus δ'), .imm 0] =
        some { m₁ with mem := m₁.mem.write (m₁.locate A.env ((Address.frame δ).plus δ')) n 0 } := by
      rcases Ty.scalarBytes_cases hn with rfl | rfl <;> rfl
    refine ⟨_, .line hexec, ?_, hregs⟩
    have hwritten := hrep₁.write hA (hdst.inside hleads) hn (v := .zero ty') fun k hk => by
      rw [Value.word_zero]
      rcases Ty.scalarBytes_cases hk with rfl | rfl <;> decide
    rwa [Value.word_zero, ← hlocate hregs, ← hvalue] at hwritten
  have hclear := emits_context_bind.1 hemits
  rw [hslot] at hclear
  refine traverses_clear.represents hdistinct hwrites hN hdst (fun r hr => ?_) hclear hrep rfl
  refine Store.fill_of_ne _ _ fun hobject => hr ⟨r.path, ?_⟩
  obtain ⟨o, p⟩ := r
  cases hobject
  rfl

end Activation.Represents

/-- A local has bytes in the frame, for all of its type. -/
theorem Gen.Context.Lowers.slot_of_local {cx : Gen.Context} {u : UnitNode} {f : FunctionNode}
    {x d : NodeId} {b : Binder} (h : cx.Lowers u f) (hin : cx.InBody f x)
    (hk : cx.arena.kind x = .ok (.declare d)) (hb : cx.arena.kind d = .ok (.declaration b)) :
    ∃ δ N, cx.frame.slot? d = some ⟨.frame δ, b.ty, false⟩ ∧
      cx.table.sizeOf b.ty = .ok (some N) := by
  obtain ⟨taken, -, hsound, -⟩ := h.frame_sound
  have hlayout := h.frame
  simp only [Frame.layout, Outcome.bind_eq_ok, Outcome.lift_eq_ok, Outcome.pure_eq_ok] at hlayout
  obtain ⟨taken', -, f₁, -, f₂, hlocals, size, -, hframe⟩ := hlayout
  obtain ⟨-, -, hbytes⟩ := Frame.body_hasBytes h.locals_declared hlocals
  obtain ⟨start, htree⟩ := h.tree hin
  obtain ⟨r, hr, hbelow⟩ := hin
  obtain ⟨⟨storage, ty, ref⟩, used, n, hslot, hstorage, htakes, -⟩ :=
    hbytes d (.inl ⟨r, hr, x, hbelow, hk⟩)
  have hfound : cx.frame.slot? d = some ⟨storage, ty, ref⟩ := hframe ▸ hslot
  obtain ⟨b', hb', hty, href⟩ := hsound.declared _ (Frame.mem_of_slot? hfound)
  cases hb.symm.trans hb'
  obtain rfl : ref = false := href.trans (htree.shaped hk b hb)
  cases hstorage
  cases hty
  exact ⟨_, n, hfound, by simpa [Slot.Takes] using htakes⟩

end MiniJ
