import MiniJ.Proofs.Lowering.Call
import MiniJ.Proofs.Lowering.FunctionShape
import MiniJ.Proofs.Lowering.Slots
import MiniJ.Proofs.Lowering.Transfers
import MiniJ.Proofs.Semantics.Activation

/-!
# Prologues

A function sets up its frame, moves register parameters that need an address into it, and copies the
records that are passed by value. All of this happens in a small area below the arguments on the
stack, so that what lies elsewhere is still there when a record is copied.

## Main definitions

* `Lowering.ChangesOnly` — only the area of the frame and two registers have changed.

## Main statements

* `Lowering.runs_copies` — copying cells copies bytes.
* `Frame.copied_iff` — the records that are copied are those passed by value.
* `Lowering.prologue_copies` — every byte of a record passed by value is copied.
-/
namespace MiniJ

namespace Memory

/-- The bytes of what was read are the bytes that were there. -/
theorem byteAt_read {m : Memory} {a : Word} {n j : Nat} (hj : j < n) :
    byteAt (m.read a n) j = m (a + BitVec.ofNat 64 j) := by
  induction j generalizing a n with
  | zero =>
    obtain ⟨n, rfl⟩ := Nat.exists_eq_add_of_lt hj
    apply BitVec.eq_of_toNat_eq
    have hbyte := (m a).isLt
    rw [toNat_byteAt_zero, Nat.zero_add, read_succ]
    simp only [BitVec.add_zero]
    omega
  | succ j ih =>
    obtain ⟨k, rfl⟩ : ∃ k, n = k + 1 := ⟨n - 1, by omega⟩
    have hrest : m.read a (k + 1) / 256 = m.read (a + 1#64) k := by
      have hbyte := (m a).isLt
      rw [read_succ]
      omega
    have haddress : a + BitVec.ofNat 64 (j + 1) = a + 1#64 + BitVec.ofNat 64 j := by
      rw [BitVec.add_assoc, Nat.add_comm j, BitVec.ofNat_add]
    rw [byteAt, hrest, ih (by omega), haddress]

end Memory

namespace Frame

open Outcome

variable {a : Arena} {table : SymbolTable} {info : SemanticInfo} {f g : Frame} {b : Binder}
  {taken : List NodeId} {index : Nat} {c : CopiedParameter} {params : List NodeId} {record : String}

/-! ### Records that are copied -/

/-- The copy is the one of the parameter with number `i` among those from `index` on. -/
structure CopiesValue (a : Arena) (params : List NodeId) (index : Nat) (g : Frame)
    (c : CopiedParameter) (i : Nat) : Prop where
  position : params[i]? = some c.param
  source : c.source = incoming (index + i)
  target : ∃ δ, c.address = .frame δ ∧ g.slot? c.param = some ⟨.frame δ, .record c.record, false⟩

/-- Parameters that are records passed by value are copied, and nothing else is. -/
theorem addParameters_copied (hparams : ∀ p ∈ params, a.IsDeclaration p) (hnodup : params.Nodup)
    (h : Frame.addParameters a table taken index params f = .ok g) :
    (∀ c ∈ f.copied, c ∈ g.copied) ∧
      (∀ c ∈ g.copied, c ∈ f.copied ∨ ∃ i, CopiesValue a params index g c i) ∧
      ∀ p ∈ params, ∀ b, a.kind p = .ok (.declaration b) → b.isCopied = true →
        ∃ c ∈ g.copied, c.param = p := by
  induction params generalizing index f with
  | nil =>
    cases pure_eq_ok.1 h
    exact ⟨fun _ hc => hc, fun _ hc => .inl hc, by simp⟩
  | cons q params ih =>
    obtain ⟨f', hq, hrest⟩ := bind_eq_ok.1 h
    have hparams' : ∀ r ∈ params, a.IsDeclaration r := fun r hr => hparams r (by simp [hr])
    obtain ⟨hfresh, hnodup'⟩ := List.nodup_cons.1 hnodup
    obtain ⟨hmono, honly, hall⟩ := ih hparams' hnodup' hrest
    obtain ⟨b, hb⟩ := hparams q (by simp)
    have hslot := (addParameters_keeps hparams' hrest).2 q hfresh
    have hfirst : (∀ c ∈ f.copied, c ∈ f'.copied) ∧
        (∀ c ∈ f'.copied, c ∈ f.copied ∨ CopiesValue a (q :: params) index g c 0) ∧
        (b.isCopied = true → ∃ c ∈ f'.copied, c.param = q) := by
      cases addParameter_eq_ok hb hq with
      | stays word free size slots copied =>
        rw [copied]
        refine ⟨fun _ hc => hc, fun _ hc => .inl hc, fun hvalue => ?_⟩
        rw [fitsWord_iff.1 word] at hvalue
        cases hvalue
      | homed allocates copied homed source passed word =>
        rw [copied]
        refine ⟨fun _ hc => hc, fun _ hc => .inl hc, fun hvalue => ?_⟩
        rw [fitsWord_iff.1 word] at hvalue
        cases hvalue
      | @copied used n record type value allocates copied =>
        rw [copied]
        refine ⟨fun c hc => List.mem_append_left _ hc, fun c hc => ?_,
          fun _ => ⟨_, List.mem_append_right _ (List.mem_singleton_self _), rfl⟩⟩
        rcases List.mem_append.1 hc with hc | hc
        · exact .inl hc
        · obtain rfl := List.mem_singleton.1 hc
          refine .inr ⟨rfl, rfl, _, rfl, hslot.trans ?_⟩
          rw [(slot?_of_slots_eq allocates.slots).1, slotOf, type, value]
    refine ⟨fun c hc => hmono c (hfirst.1 c hc), fun c hc => ?_, ?_⟩
    · rcases honly c hc with hc | ⟨i, hposition, hsource, htarget⟩
      · exact (hfirst.2.1 c hc).imp_right fun hc => ⟨0, hc⟩
      · refine .inr ⟨i + 1, hposition, ?_, htarget⟩
        rw [hsource, Nat.add_assoc, Nat.add_comm 1]
    · rintro p hp b' hb' hvalue
      rcases List.mem_cons.1 hp with rfl | hp
      · cases hb.symm.trans hb'
        obtain ⟨c, hc, hparam⟩ := hfirst.2.2 hvalue
        exact ⟨c, hmono c hc, hparam⟩
      · exact hall p hp b' hb' hvalue

/-- Locals are not copied. -/
theorem body_copied {body : List NodeId} (hdecl : ∀ r ∈ body, LocalsDeclared a r)
    (h : body.foldlM (Frame.addLocals a table) f = .ok g) : g.copied = f.copied := by
  induction body generalizing f with
  | nil =>
    cases pure_eq_ok.1 h
    rfl
  | cons r body ih =>
    obtain ⟨f', hr, hrest⟩ := foldlM_cons_eq_ok.1 h
    obtain ⟨ids, hids, hfold⟩ := bind_eq_ok.1 hr
    rw [ih (fun q hq => hdecl q (by simp [hq])) hrest]
    refine addLocals_induction (P := fun g => g.copied = f.copied) (fun d hd f₁ f₂ hf₁ hadd => ?_)
      rfl
      hfold
    obtain ⟨x, hx, hk⟩ := (mem_localsOf (lift_eq_ok.1 hids)).1 hd
    obtain ⟨b, hb⟩ := hdecl r (by simp) x d hx hk
    exact (addLocal_eq_ok hb hadd).1.trans hf₁

/-- The records that a function copies when it is entered are those passed to it by value. -/
theorem copied_layout {function : FunctionNode} {lo id : Nat} (htree : a.Tree lo id)
    (hf : a.kind id = .ok (.function function)) (hdecl : ∀ r ∈ function.body, LocalsDeclared a r)
    (h : layout a info table function = .ok g) :
    (∀ c ∈ g.copied, ∃ i, CopiesValue a function.params 0 g c i) ∧
      ∀ p ∈ function.params, ∀ b, a.kind p = .ok (.declaration b) → b.isCopied = true →
        ∃ c ∈ g.copied, c.param = p := by
  have hparams : ∀ p ∈ function.params, a.IsDeclaration p :=
    fun p hp => htree.isDeclaration_param hf hp
  simp only [layout, bind_eq_ok, lift_eq_ok, pure_eq_ok] at h
  obtain ⟨lists, -, f₁, hadd, f₂, hlocals, size, -, rfl⟩ := h
  obtain ⟨-, honly, hall⟩ := addParameters_copied hparams (htree.params_apart hf).1 hadd
  have hcopied : f₂.copied = f₁.copied := body_copied hdecl hlocals
  have hkeep := (body_hasBytes hdecl hlocals).2.1
  refine ⟨fun c hc => ?_, fun p hp b hb hvalue => ?_⟩
  · rcases honly c (hcopied ▸ hc) with hc | ⟨i, hposition, hsource, δ, haddress, hslot⟩
    · cases hc
    · have hlocal := not_declaresIn_of_param htree hf (List.mem_of_getElem? hposition)
      exact ⟨i, hposition, hsource, δ, haddress, (hkeep c.param hlocal).trans hslot⟩
  · obtain ⟨c, hc, hparam⟩ := hall p hp b hb hvalue
    exact ⟨c, hcopied.symm ▸ hc, hparam⟩

end Frame

namespace Lowering

open Gen Machine Outcome SymbolTable

variable {env : Environment} {guard : Mnemonic → List Operand → Machine → Prop} {m m' : Machine}
  {q : Register} {source target : Address} {ty : Ty} {leaves : List Ty} {o N : Nat}

/-! ### Cells -/

theorem locate_plus {a : Address} {n : Nat} :
    m.locate env (a.plus n) = m.locate env a + BitVec.ofNat 64 n := by
  rw [locate, locate, Address.plus, BitVec.ofInt_add, BitVec.add_assoc]
  rfl

theorem locate_congr {a : Address} (hbase : a.base ≠ .register q)
    (hregs : ∀ p, p ≠ q → m'.regs p = m.regs p) : m'.locate env a = m.locate env a := by
  unfold locate
  cases hcase : a.base with
  | symbol name => rfl
  | register p =>
    have hne : p ≠ q := by
      rintro rfl
      exact hbase hcase
    simp only [hregs p hne]

/-- One cell is read, and written behind the target. -/
theorem runs_cell (hty : (ty.leafSize (some handleSize)).isSome = true)
    (hbase : target.base ≠ .register q)
    (hrun : Runs env guard (copies q source target [(o, ty)]) m m') :
    (∀ p, p ≠ q → m'.regs p = m.regs p) ∧
      m'.mem = m.mem.write (m.locate env target + BitVec.ofNat 64 o) ty.cellBytes
        (m.mem.read (m.locate env source + BitVec.ofNat 64 o) ty.cellBytes) := by
  obtain ⟨hn, hbytes⟩ := bytes_cellWidth hty
  rw [hbytes] at hn
  have hcases := Ty.scalarBytes_cases hn
  have hwidth : cellWidth ty = .ofSize ty.cellBytes := rfl
  have hfits := m.mem.read_lt (m.locate env source + BitVec.ofNat 64 o) ty.cellBytes
  generalize hw : m.mem.read (m.locate env source + BitVec.ofNat 64 o) ty.cellBytes = v at hfits ⊢
  have hword : (BitVec.ofNat 64 v).toNat = v := by
    rw [BitVec.toNat_ofNat]
    rcases hcases with heq | heq <;> rw [heq] at hfits <;> simp only [Memory.capacity] at hfits <;>
      omega
  have hload : m.exec env .mov [.sized (.ofSize ty.cellBytes) q,
      .mem (.ofSize ty.cellBytes) (source.plus o)] = some (m.set q (BitVec.ofNat 64 v)) :=
    exec_load hcases (by rw [locate_plus, hw, hword])
  have hstore : (m.set q (BitVec.ofNat 64 v)).exec env .mov
      [.mem (.ofSize ty.cellBytes) (target.plus o), .sized (.ofSize ty.cellBytes) q] = _ :=
    exec_store_word hcases (regs_set_self _ _ _) (by rwa [hword])
  rw [copies, List.flatMap_singleton, hwidth] at hrun
  obtain ⟨m₁, -, hexec, hrest⟩ := (runs_cons (by decide)).1 hrun
  cases hload.symm.trans hexec
  obtain ⟨m₂, -, hexec', hdone⟩ := (runs_cons (by decide)).1 hrest
  cases hstore.symm.trans hexec'
  obtain rfl := runs_nil.1 hdone
  refine ⟨fun p hp => regs_set_of_ne _ _ hp, ?_⟩
  rw [locate_plus, locate_congr hbase (m := m) fun p hp => regs_set_of_ne _ _ hp, hword]
  rfl

/-- Copying some cells changes their bytes only, and if they are copied to a place apart, their
bytes are what the bytes of the source were. -/
theorem runs_copies (hleaves : ∀ ty ∈ leaves, (ty.leafSize (some handleSize)).isSome = true)
    (hsource : source.base ≠ .register q) (htarget : target.base ≠ .register q)
    (hN : o + cellsBytes leaves ≤ N) (hlt : N < 18446744073709551616)
    (hrun : Runs env guard (copies q source target (cells o leaves)) m m') :
    (∀ p, p ≠ q → m'.regs p = m.regs p) ∧
      (∀ x : Word, ¬(o ≤ (x - m.locate env target).toNat ∧
        (x - m.locate env target).toNat < o + cellsBytes leaves) → m'.mem x = m.mem x) ∧
      (Memory.Apart (m.locate env source) N (m.locate env target) N →
        ∀ j, o ≤ j → j < o + cellsBytes leaves → m'.mem (m.locate env target + BitVec.ofNat 64 j) =
          m.mem (m.locate env source + BitVec.ofNat 64 j)) := by
  induction leaves generalizing o m with
  | nil =>
    obtain rfl := runs_nil.1 hrun
    refine ⟨fun _ _ => rfl, fun _ _ => rfl, fun _ j hj hj' => ?_⟩
    have hempty : cellsBytes [] = 0 := rfl
    omega
  | cons ty leaves ih =>
    rw [cells, copies, List.flatMap_cons] at hrun
    obtain ⟨m₁, hfirst, hothers⟩ := runs_append.1 hrun
    have hcell : Runs env guard (copies q source target [(o, ty)]) m m₁ := by
      rwa [copies, List.flatMap_singleton]
    obtain ⟨hregs, hmem⟩ := runs_cell (hleaves ty (by simp)) htarget hcell
    have hsource₁ : m₁.locate env source = m.locate env source := locate_congr hsource hregs
    have htarget₁ : m₁.locate env target = m.locate env target := locate_congr htarget hregs
    rw [cellsBytes_cons] at hN ⊢
    obtain ⟨hregs', hkept, hcopied⟩ := ih (o := o + ty.cellBytes) (m := m₁)
      (fun ty hty => hleaves ty (by simp [hty])) (by omega) hothers
    rw [hsource₁, htarget₁] at hcopied
    rw [htarget₁] at hkept
    generalize m.locate env source = src at hmem hcopied ⊢
    generalize m.locate env target = dst at hmem hcopied hkept ⊢
    have hindex : ∀ {j : Nat}, j < N →
        ∀ base : Word, (base + BitVec.ofNat 64 j - base).toNat = j := by
      intro j hj base
      bv_omega
    -- bytes outside of this cell
    have hother : ∀ x : Word, ¬(o ≤ (x - dst).toNat ∧ (x - dst).toNat < o + ty.cellBytes) →
        m₁.mem x = m.mem x := by
      intro x hx
      rw [hmem, Memory.write, if_neg]
      bv_omega
    refine ⟨fun p hp => (hregs' p hp).trans (hregs p hp), fun x hx => ?_, fun hapart j hj hj' => ?_⟩
    · rw [hkept x (by omega), hother x (by omega)]
    · by_cases hlater : o + ty.cellBytes ≤ j
      · rw [hcopied hapart j hlater (by omega)]
        refine hother _ fun hin => hapart (src + BitVec.ofNat 64 j) ?_ ?_
        · rw [hindex (by omega)]
          omega
        · omega
      · have hj'' := hindex (show j < N by omega) dst
        rw [hkept _ (by omega), hmem, Memory.write]
        have hoffset : (dst + BitVec.ofNat 64 j - (dst + BitVec.ofNat 64 o)).toNat = j - o := by
          bv_omega
        rw [if_pos (by omega), hoffset, Memory.byteAt_read (by omega)]
        congr 1
        bv_omega

/-! ### One record -/

variable {cx : Context} {s : State} {code : List Line} {c : CopiedParameter} {δ : Int}
  {w base : Word} {index n : Nat}

/-- The word that comes in is put into a register. -/
theorem exec_incoming {incoming : Operand} {storage : Storage}
    (hsource : incomingOperand? storage = some incoming) (hw : m.Holds w storage) :
    m.exec env .mov [.reg q, incoming] = some (m.set q w) := by
  cases storage with
  | global symbol => cases hsource
  | register r =>
    cases hsource
    cases hw
    rfl
  | frame δ =>
    cases hsource
    cases hw
    have hlocate : m.locate env (.frame δ) = m.regs .rbp + BitVec.ofInt 64 δ := rfl
    simp [exec, movable, Operand.bytes?, Operand.isMemory, Width.bytes, value, Machine.assign,
      hlocate, -Memory.read_succ]

/-- The copy of a record changes its bytes in the frame only; they become what the bytes of the
record were, if it lies apart from them. -/
theorem CopyShape.runs (h : CopyShape cx c s code) (haddress : c.address = .frame δ)
    (hsource : c.source = Frame.incoming index)
    (hn : cx.table.sizeOf (.record c.record) = .ok (some n))
    (hsmall : n < 2147483648) (hw : m.Holds w c.source) (hrun : Runs env guard code m m') :
    (∀ p, p ≠ .rax → p ≠ .r11 → m'.regs p = m.regs p) ∧
      (∀ x : Word, ¬(x - (m.regs .rbp + BitVec.ofInt 64 δ)).toNat < n → m'.mem x = m.mem x) ∧
      (Memory.Apart w n (m.regs .rbp + BitVec.ofInt 64 δ) n → ∀ j < n,
        m'.mem (m.regs .rbp + BitVec.ofInt 64 δ + BitVec.ofNat 64 j) =
          m.mem (w + BitVec.ofNat 64 j)) := by
  cases h with
  | nothing source =>
    rw [hsource] at source
    rcases Frame.incoming_cases index with ⟨r, -, hin⟩ | ⟨-, hin⟩ <;> rw [hin] at source <;>
      cases source
  | @copy incoming t c' source copied =>
    obtain ⟨m₁, -, hexec, hrest⟩ := (runs_cons (by decide)).1 hrun
    cases (exec_incoming source hw).symm.trans hexec
    obtain ⟨leaves, hleaves, hbytes, hsized⟩ := expands_of_sizeWithin hn
    obtain ⟨-, rfl⟩ := copies_of_emits hn hsmall hleaves copied
    have hcells : cellsBytes leaves = n := hbytes.symm
    have hloads : (m.set .r11 w).locate env (.register .r11) = w := by
      show (m.set .r11 w).regs .r11 + BitVec.ofInt 64 0 = w
      rw [regs_set_self]
      exact BitVec.add_zero w
    have hstores : (m.set .r11 w).locate env c.address = m.regs .rbp + BitVec.ofInt 64 δ := by
      rw [haddress]
      show (m.set .r11 w).regs .rbp + _ = _
      rw [regs_set_of_ne _ _ (by decide)]
      rfl
    have hbase : c.address.base ≠ .register .rax := by
      rw [haddress]
      exact show Address.Base.register .rbp ≠ .register .rax by decide
    obtain ⟨hregs, hkept, hcopied⟩ := runs_copies (N := n) hsized (by decide) hbase (by omega)
      (by omega) hrest
    rw [hloads, hstores] at hcopied
    rw [hstores] at hkept
    refine ⟨fun p hp hp' => (hregs p hp).trans (regs_set_of_ne _ _ hp'), fun x hx =>
      hkept x (by omega), fun hapart j hj => hcopied hapart j (by omega) (by omega)⟩

/-! ### All records -/

/-- Only two registers and `n` bytes from an address on have changed. -/
structure ChangesOnly (lo : Word) (n : Nat) (m m' : Machine) : Prop where
  regs : ∀ q, q ≠ .rax → q ≠ .r11 → m'.regs q = m.regs q
  mem : ∀ x : Word, ¬(x - lo).toNat < n → m'.mem x = m.mem x

namespace ChangesOnly

variable {lo : Word} {m₁ : Machine}

theorem refl (lo : Word) (n : Nat) (m : Machine) : ChangesOnly lo n m m :=
  ⟨fun _ _ _ => rfl, fun _ _ => rfl⟩

theorem trans (h : ChangesOnly lo n m m₁) (h' : ChangesOnly lo n m₁ m') : ChangesOnly lo n m m' :=
  ⟨fun q hq hq' => (h'.regs q hq hq').trans (h.regs q hq hq'),
    fun x hx => (h'.mem x hx).trans (h.mem x hx)⟩

/-- Below the saved frame pointer nothing comes in. -/
theorem holds (h : ChangesOnly (m.regs .rbp - BitVec.ofNat 64 n) (n + 8) m m')
    (hspan : n + 16 + 8 * (index - 5) ≤ 18446744073709551616)
    (hw : m.Holds w (Frame.incoming index)) :
    m'.Holds w (Frame.incoming index) := by
  rcases Frame.incoming_cases index with ⟨r, hr, hin⟩ | ⟨hsix, hin⟩
  · rw [hin] at hw ⊢
    have hargument := List.mem_of_getElem? hr
    exact (h.regs r (by rintro rfl; revert hargument; decide)
      (by rintro rfl; revert hargument; decide)).trans hw
  · rw [hin] at hw ⊢
    have hrbp := h.regs .rbp (by decide) (by decide)
    have hoffset : BitVec.ofInt 64 (16 + 8 * ((index - 6 : Nat) : Int)) =
        BitVec.ofNat 64 (16 + 8 * (index - 6)) := by
      rw [← BitVec.ofInt_natCast]
      congr 1
    have hread : m'.mem.read (m.regs .rbp + BitVec.ofInt 64 (16 + 8 * ((index - 6 : Nat) : Int)))
        8 = m.mem.read (m.regs .rbp + BitVec.ofInt 64 (16 + 8 * ((index - 6 : Nat) : Int))) 8 := by
      refine Memory.read_congr (by decide) fun x hx => h.mem x ?_
      rw [hoffset] at hx
      generalize m.regs .rbp = base at hx
      have hplace : (x - (base - BitVec.ofNat 64 n)).toNat =
          n + (16 + 8 * (index - 6)) +
            (x - (base + BitVec.ofNat 64 (16 + 8 * (index - 6)))).toNat := by
        bv_omega
      omega
    show BitVec.ofNat 64 (m'.mem.read (m'.regs .rbp + _) 8) = w
    rw [hrbp, hread]
    exact hw

end ChangesOnly

/-- Bytes that are taken below the frame pointer lie in the frame. -/
theorem within_frame {used size : Nat} (hn : n ≤ used + 8) (hused : used ≤ size)
    (hsize : size < 2147483648) {x : Word}
    (hx : (x - (base + BitVec.ofInt 64 (-SymbolTable.displacement used))).toNat < n) :
    (x - (base - BitVec.ofNat 64 size)).toNat < size + 8 := by
  have hdisplacement : SymbolTable.displacement used = used := displacement_of_lt (by omega)
  have hword : BitVec.ofInt 64 (-SymbolTable.displacement used) = -BitVec.ofNat 64 used := by
    rw [hdisplacement, BitVec.ofInt_neg, BitVec.ofInt_natCast]
  rw [hword] at hx
  bv_omega

/-- Some word comes in for every parameter. -/
theorem exists_holds : ∃ w, m.Holds w (Frame.incoming index) := by
  rcases Frame.incoming_cases index with ⟨r, -, hin⟩ | ⟨-, hin⟩ <;> rw [hin] <;> exact ⟨_, rfl⟩

/-- Where the bytes of the copies are: in the frame, and apart from each other. -/
structure Arrange (table : SymbolTable) (size : Nat) (cs : List CopiedParameter) : Prop where
  copies : ∀ c ∈ cs, Frame.CopiesTo table size c
  incoming : ∀ c ∈ cs, ∃ index, c.source = Frame.incoming index ∧
    size + 16 + 8 * (index - 5) ≤ 18446744073709551616
  apart : ∀ c ∈ cs, ∀ c' ∈ cs, c ≠ c' → ∀ δ δ' n n', c.address = .frame δ → c'.address = .frame δ' →
    table.sizeOf (.record c.record) = .ok (some n) →
    table.sizeOf (.record c'.record) = .ok (some n') →
    δ + n ≤ δ' ∨ δ' + n' ≤ δ

theorem Arrange.tail {table : SymbolTable} {size : Nat} {c : CopiedParameter}
    {cs : List CopiedParameter} (h : Arrange table size (c :: cs)) : Arrange table size cs :=
  ⟨fun c' hc' => h.copies c' (by simp [hc']), fun c' hc' => h.incoming c' (by simp [hc']),
    fun c' hc' c'' hc'' => h.apart c' (by simp [hc']) c'' (by simp [hc''])⟩

/-- Different copies have no byte of memory in common, wherever the frame lies. -/
theorem Arrange.memory_apart {table : SymbolTable} {size n n' : Nat} {cs : List CopiedParameter}
    {c c' : CopiedParameter} {δ δ' : Int} (h : Arrange table size cs) (hsize : size < 2147483648)
    (hc : c ∈ cs) (hc' : c' ∈ cs) (hne : c ≠ c') (hδ : c.address = .frame δ)
    (hδ' : c'.address = .frame δ') (hn : table.sizeOf (.record c.record) = .ok (some n))
    (hn' : table.sizeOf (.record c'.record) = .ok (some n')) (base : Word) :
    Memory.Apart (base + BitVec.ofInt 64 δ) n (base + BitVec.ofInt 64 δ') n' := by
  obtain ⟨-, used, k, haddress, hk, hle, hused, -⟩ := h.copies c hc
  obtain ⟨-, used', k', haddress', hk', hle', hused', -⟩ := h.copies c' hc'
  cases haddress.symm.trans hδ
  cases hk.symm.trans hn
  cases haddress'.symm.trans hδ'
  cases hk'.symm.trans hn'
  have hdisplacement : displacement used = used := displacement_of_lt (by omega)
  have hdisplacement' : displacement used' = used' := displacement_of_lt (by omega)
  rcases h.apart c hc c' hc' hne _ _ _ _ hδ hδ' hn hn' with hbefore | hbehind
  · exact Activation.apart_of_behind hbefore (by omega)
  · exact (Activation.apart_of_behind hbehind (by omega)).symm

/-- The copies change bytes of the frame only, and the bytes of each of them become what the bytes
of its record were, if the record lies apart from the frame. -/
theorem CopiesShape.runs {size : Nat} {cs : List CopiedParameter} (h : CopiesShape cx s cs code)
    (harrange : Arrange cx.table size cs) (hsize : size < 2147483648)
    (hrun : Runs env guard code m m') :
    ChangesOnly (m.regs .rbp - BitVec.ofNat 64 size) (size + 8) m m' ∧
      (∀ x : Word, (∀ c ∈ cs, ∀ δ n, c.address = .frame δ →
        cx.table.sizeOf (.record c.record) = .ok (some n) →
        ¬(x - (m.regs .rbp + BitVec.ofInt 64 δ)).toNat < n) → m'.mem x = m.mem x) ∧
      ∀ c ∈ cs, ∀ δ n w, c.address = .frame δ → cx.table.sizeOf (.record c.record) = .ok (some n) →
        m.Holds w c.source →
        Memory.Apart w n (m.regs .rbp - BitVec.ofNat 64 size) (size + 8) → ∀ j < n,
        m'.mem (m.regs .rbp + BitVec.ofInt 64 δ + BitVec.ofNat 64 j) =
          m.mem (w + BitVec.ofNat 64 j) := by
  induction h generalizing m with
  | nil =>
    obtain rfl := runs_nil.1 hrun
    exact ⟨.refl _ _ _, fun _ _ => rfl, by simp⟩
  | @cons c cs code₁ code₂ first _ ih =>
    obtain ⟨m₁, hfirst, hothers⟩ := runs_append.1 hrun
    obtain ⟨⟨index, hsource⟩, used, k, haddress, hk, hle, hused, -⟩ := harrange.copies c (by simp)
    obtain ⟨w₀, hw₀⟩ : ∃ w, m.Holds w c.source := hsource ▸ exists_holds
    obtain ⟨hregs, hkept, -⟩ := first.runs haddress hsource hk (by omega) hw₀ hfirst
    have hinside : ∀ {x : Word},
        (x - (m.regs .rbp + BitVec.ofInt 64 (-displacement used))).toNat < k →
        (x - (m.regs .rbp - BitVec.ofNat 64 size)).toNat < size + 8 :=
      fun hx => within_frame (by omega) hused hsize hx
    have hchanges : ChangesOnly (m.regs .rbp - BitVec.ofNat 64 size) (size + 8) m m₁ :=
      ⟨hregs, fun x hx => hkept x fun hin => hx (hinside hin)⟩
    have hrbp : m₁.regs .rbp = m.regs .rbp := hregs .rbp (by decide) (by decide)
    obtain ⟨hchanges', hframe, hcopied⟩ := ih harrange.tail hothers
    rw [hrbp] at hchanges' hframe hcopied
    refine ⟨hchanges.trans hchanges', fun x hx => ?_, fun c' hc' δ n w hδ hn hw hapart j hj => ?_⟩
    · rw [hframe x fun c' hc' => hx c' (by simp [hc'])]
      exact hkept x (hx c (by simp) _ _ haddress hk)
    have hsourced : m₁.mem (w + BitVec.ofNat 64 j) = m.mem (w + BitVec.ofNat 64 j) := by
      have hn' := sizeOf_lt hn
      refine hchanges.mem _ (hapart _ ?_)
      bv_omega
    by_cases hlater : c' ∈ cs
    · obtain ⟨index', hsource', hspan⟩ := harrange.tail.incoming c' hlater
      rw [hcopied c' hlater δ n w hδ hn ?_ hapart j hj, hsourced]
      rw [hsource'] at hw ⊢
      exact hchanges.holds hspan hw
    · obtain rfl : c' = c := (List.mem_cons.1 hc').resolve_right hlater
      cases hk.symm.trans hn
      cases haddress.symm.trans hδ
      obtain ⟨-, -, hcontent⟩ := first.runs haddress hsource hk (by omega) hw hfirst
      -- later copies have bytes of their own
      have hspared :
          m'.mem (m.regs .rbp + BitVec.ofInt 64 (-displacement used) + BitVec.ofNat 64 j) =
            m₁.mem (m.regs .rbp + BitVec.ofInt 64 (-displacement used) + BitVec.ofNat 64 j) := by
        refine hframe _ fun c'' hc'' δ' n' hδ' hn' => ?_
        have hne : c' ≠ c'' := by
          rintro rfl
          exact hlater hc''
        have hoffset : (m.regs .rbp + BitVec.ofInt 64 (-displacement used) + BitVec.ofNat 64 j -
            (m.regs .rbp + BitVec.ofInt 64 (-displacement used))).toNat = j := by
          bv_omega
        exact harrange.memory_apart hsize hc' (by simp [hc'']) hne hδ hδ' hn hn' _ _
          (by rw [hoffset]; exact hj)
      rw [hspared]
      exact hcontent (fun x hx hx' => hapart x hx (hinside hx')) j hj

/-! ### Setting up the frame -/

theorem holds_congr {storage : Storage} (hregs : ∀ p, p ≠ .rsp → m'.regs p = m.regs p)
    (hmem : m'.mem = m.mem) (hstorage : storage ≠ .register .rsp) (hw : m.Holds w storage) :
    m'.Holds w storage := by
  cases storage with
  | global symbol => exact hw
  | register r => exact (hregs r fun heq => hstorage (by rw [heq])).trans hw
  | frame δ =>
    rw [Machine.Holds, hmem, hregs .rbp (by decide)]
    exact hw

/-- The size of a frame as an operand. -/
theorem argument_size {size : Nat} (hsize : size < 2147483648) :
    m.argument (.imm (Int64.ofNat size)) = some (BitVec.ofNat 64 size) ∧
      (BitVec.ofNat 64 size).toInt = size := by
  have hint : (BitVec.ofNat 64 size).toInt = size := by
    rw [BitVec.toInt_ofNat', Int.bmod_eq_of_le (by omega) (by omega)]
  have hfits : fitsInstruction (Int64.ofNat size) = true := by
    have hvalue : (Int64.ofNat size).toInt = size := hint
    simp only [fitsInstruction, hvalue, Address.inRange]
    grind
  exact ⟨if_pos hfits, hint⟩

/-- Entering a function saves the frame pointer and puts the new one where the stack ends. -/
theorem runs_enter (hrun : Runs env guard [.push .rbp, .move .rbp .rsp] m m') :
    m'.regs .rsp = m.regs .rsp - 8#64 ∧ m'.regs .rbp = m.regs .rsp - 8#64 ∧
      8 ≤ (m.regs .rsp).toNat ∧
      ∀ x : Word, ¬(x - (m.regs .rsp - 8#64)).toNat < 8 → m'.mem x = m.mem x := by
  obtain ⟨m₀, hpush, hmove⟩ := runs_push_cons hrun
  obtain ⟨hroom, rfl⟩ := push_eq_some hpush
  obtain ⟨_, -, hexec, hdone⟩ := (runs_cons (by decide)).1 hmove
  obtain rfl := runs_nil.1 hdone
  cases hexec
  exact ⟨rfl, rfl, hroom, fun x hx => if_neg hx⟩

/-- The set-up of a frame enters the function and then moves the stack pointer only, as far as there
is room. -/
theorem runs_frameCode (hsmall : cx.frame.size < 2147483648)
    (hrun : Runs env guard (frameCode cx) m m') :
    ∃ m₁, Runs env guard [.push .rbp, .move .rbp .rsp] m m₁ ∧
      (∀ p, p ≠ .rsp → m'.regs p = m₁.regs p) ∧ m'.mem = m₁.mem ∧
      cx.frame.size + 8 ≤ (m.regs .rsp).toNat := by
  obtain ⟨m₁, hfirst, hrest⟩ : ∃ m₁, Runs env guard [.push .rbp, .move .rbp .rsp] m m₁ ∧ _ :=
    runs_append.1 hrun
  obtain ⟨hrsp, -, hroom, -⟩ := runs_enter hfirst
  obtain ⟨m₂, hsub, hand⟩ := runs_append.1 hrest
  have haligned : (∀ p, p ≠ .rsp → m'.regs p = m₂.regs p) ∧ m'.mem = m₂.mem := by
    split at hand
    · obtain ⟨_, -, hexec, hdone⟩ := (runs_cons (by decide)).1 hand
      obtain rfl := runs_nil.1 hdone
      exact ⟨fun p hp => exec_regs hexec (by simpa [written] using hp), exec_mem hexec rfl⟩
    · rw [runs_nil.1 hand]
      exact ⟨fun _ _ => rfl, rfl⟩
  have hreserved : (∀ p, p ≠ .rsp → m₂.regs p = m₁.regs p) ∧ m₂.mem = m₁.mem ∧
      cx.frame.size + 8 ≤ (m.regs .rsp).toNat := by
    split at hsub
    · obtain ⟨_, -, hexec, hdone⟩ := (runs_cons (by decide)).1 hsub
      obtain rfl := runs_nil.1 hdone
      refine ⟨fun p hp => exec_regs hexec (by simpa [written] using hp), exec_mem hexec rfl, ?_⟩
      obtain ⟨w, hw, hlimit, -⟩ := subtract_eq_some hexec
      obtain ⟨hargument, hint⟩ := argument_size (m := m₁) hsmall
      cases hargument.symm.trans hw
      have hlimit := hlimit rfl
      rw [hrsp, hint] at hlimit
      bv_omega
    · rw [runs_nil.1 hsub]
      exact ⟨fun _ _ => rfl, rfl, by omega⟩
  exact ⟨m₁, hfirst, fun p hp => (haligned.1 p hp).trans (hreserved.1 p hp),
    haligned.2.trans hreserved.2.1, hreserved.2.2⟩

/-- Register parameters are moved into the frame. -/
theorem runs_homes {size : Nat} {ps : List HomedParameter} (h : ∀ p ∈ ps, Frame.HomesTo size p)
    (hsize : size < 2147483648) (hrun : Runs env guard (ps.map homeCode) m m') :
    ChangesOnly (m.regs .rbp - BitVec.ofNat 64 size) (size + 8) m m' := by
  induction ps generalizing m with
  | nil =>
    obtain rfl := runs_nil.1 hrun
    exact .refl _ _ _
  | cons p ps ih =>
    rw [List.map_cons] at hrun
    obtain ⟨m₁, -, hexec, hothers⟩ := (runs_cons (by decide)).1 hrun
    obtain ⟨v, -, rfl⟩ := exec_store hexec
    obtain ⟨used, hused, haddress⟩ := h p (by simp)
    have hwidth : p.width.bytes ≤ 8 := by cases p.width <;> decide
    have hfirst : ChangesOnly (m.regs .rbp - BitVec.ofNat 64 size) (size + 8) m
        { m with mem := m.mem.write (m.locate env p.address) p.width.bytes v.toNat } := by
      refine ⟨fun _ _ _ => rfl, fun x hx => if_neg fun hin => hx ?_⟩
      rw [haddress] at hin
      exact within_frame (by omega) hused hsize hin
    exact hfirst.trans (ih (fun q hq => h q (by simp [hq])) hothers)

/-! ### The whole prologue -/

variable {u : UnitNode} {f : FunctionNode} {copies : List Line} {p : NodeId} {b : Binder}
  {record : String} {i N : Nat}

/-- The prologue copies the record that is passed for a parameter, the one with number `i`. Its `N`
bytes go to `δ` in the frame. -/
structure Receives (cx : Context) (f : FunctionNode) (c : CopiedParameter) (i : Nat) (δ : Int)
    (N : Nat) :
    Prop where
  mem : c ∈ cx.frame.copied
  position : f.params[i]? = some c.param
  source : c.source = Frame.incoming i
  address : c.address = .frame δ
  slot : cx.frame.slot? c.param = some ⟨.frame δ, .record c.record, false⟩
  size : cx.table.sizeOf (.record c.record) = .ok (some N)
  lower : -(cx.frame.size : Int) ≤ δ
  upper : δ + N ≤ 0

/-- What is copied are the records that are passed by value. -/
theorem copied_frame (hlowers : cx.Lowers u f) : f.params.Nodup ∧
    (∀ c ∈ cx.frame.copied, ∃ i, Frame.CopiesValue cx.arena f.params 0 cx.frame c i) ∧
      ∀ p ∈ f.params, ∀ b, cx.arena.kind p = .ok (.declaration b) → b.isCopied = true →
        ∃ c ∈ cx.frame.copied, c.param = p := by
  obtain ⟨id, hid, hf⟩ := hlowers.member
  obtain ⟨-, start, htree⟩ := hlowers.program.layout.function_tree hid
  obtain ⟨hvalues, hall⟩ := Frame.copied_layout htree hf hlowers.locals_declared hlowers.frame
  exact ⟨(htree.params_apart hf).1, hvalues, hall⟩

theorem receives_of_mem (hlowers : cx.Lowers u f) (hsmall : cx.frame.size < 2147483648)
    (hc : c ∈ cx.frame.copied) : ∃ i δ N, Receives cx f c i δ N := by
  obtain ⟨-, hvalues, -⟩ := copied_frame hlowers
  obtain ⟨taken, -, hsound, -⟩ := hlowers.frame_sound
  obtain ⟨i, hposition, hsource, δ, haddress, hslot⟩ := hvalues c hc
  obtain ⟨-, used, N, htarget, hN, hle, hused, -⟩ := hsound.copied c hc
  rw [Nat.zero_add] at hsource
  have hdisplacement : displacement used = used := displacement_of_lt (by omega)
  obtain rfl : δ = -displacement used := by
    have heq : Address.frame δ = Address.frame (-displacement used) := haddress.symm.trans htarget
    injection heq
  exact ⟨i, _, N, hc, hposition, hsource, haddress, hslot, hN, by omega, by omega⟩

/-- Parameters have different numbers. -/
theorem position_unique (hnodup : f.params.Nodup) {j : Nat} (hi : f.params[i]? = some p)
    (hj : f.params[j]? = some p) : i = j := by
  obtain ⟨hi, hi'⟩ := List.getElem?_eq_some_iff.1 hi
  obtain ⟨hj, hj'⟩ := List.getElem?_eq_some_iff.1 hj
  exact hnodup.getElem_inj_iff.1 (hi'.trans hj'.symm)

/-- A parameter is copied once. -/
theorem Receives.unique {c' : CopiedParameter} {i' N' : Nat} {δ' : Int} (hnodup : f.params.Nodup)
    (h : Receives cx f c i δ N) (h' : Receives cx f c' i' δ' N') (hparam : c.param = c'.param) :
    c = c' := by
  obtain rfl := position_unique hnodup h.position (hparam ▸ h'.position)
  obtain ⟨-, -, hsource, haddress, hslot, -⟩ := h
  obtain ⟨-, -, hsource', haddress', hslot', -⟩ := h'
  rw [hparam] at hslot
  have hsame := hslot.symm.trans hslot'
  simp only [Option.some.injEq, Slot.mk.injEq, Storage.frame.injEq, Ty.record.injEq] at hsame
  obtain ⟨rfl, hrecord, -⟩ := hsame
  cases c
  cases c'
  simp_all

/-- Every record that is passed by value is received. -/
theorem exists_receives (hlowers : cx.Lowers u f) (hsmall : cx.frame.size < 2147483648)
    (hp : f.params[i]? = some p) (hb : cx.arena.kind p = .ok (.declaration b))
    (hty : b.ty = .record record) (hvalue : b.isReference = false) :
    ∃ c δ N, Receives cx f c i δ N ∧ c.param = p ∧ c.record = record := by
  obtain ⟨hnodup, -, hall⟩ := copied_frame hlowers
  obtain ⟨taken, -, hsound, -⟩ := hlowers.frame_sound
  obtain ⟨c, hc, rfl⟩ := hall p (List.mem_of_getElem? hp) b hb
    (by simp [Binder.isCopied, hty, hvalue, Ty.isRecord])
  obtain ⟨j, δ, N, hreceives⟩ := receives_of_mem hlowers hsmall hc
  obtain rfl := position_unique hnodup hreceives.position hp
  obtain ⟨b', hb', htype, -⟩ := hsound.declared _ (Frame.mem_of_slot? hreceives.slot)
  cases hb.symm.trans hb'
  rw [hty] at htype
  injection htype with hrecord
  exact ⟨c, δ, N, hreceives, rfl, hrecord⟩

/-- The copies of a frame are arranged. -/
theorem arrange_copied (hlowers : cx.Lowers u f) (hsmall : cx.frame.size < 2147483648)
    (hspan : cx.frame.size + 16 + 8 * (f.params.length - 6) ≤ 18446744073709551616) :
    Arrange cx.table cx.frame.size cx.frame.copied := by
  obtain ⟨taken, -, hsound, -⟩ := hlowers.frame_sound
  refine ⟨hsound.copied, fun c hc => ?_, fun c hc c' hc' hne δ δ' n n' hδ hδ' hn hn' => ?_⟩
  · obtain ⟨i, δ, N, h⟩ := receives_of_mem hlowers hsmall hc
    have hlt := (List.getElem?_eq_some_iff.1 h.position).1
    exact ⟨i, h.source, by omega⟩
  · obtain ⟨i, _, N, h⟩ := receives_of_mem hlowers hsmall hc
    obtain ⟨i', _, N', h'⟩ := receives_of_mem hlowers hsmall hc'
    cases h.address.symm.trans hδ
    cases h'.address.symm.trans hδ'
    have hparam : c.param ≠ c'.param :=
      fun heq => hne (h.unique (copied_frame hlowers).1 h' heq)
    exact hsound.separate hsmall h.slot h'.slot hparam n n' (by simpa [Slot.Takes] using hn)
      (by simpa [Slot.Takes] using hn')

/-- The prologue changes bytes below its return address only, and copies the records that lie apart
from them as they are. -/
theorem runs_prologue (hlowers : cx.Lowers u f) (hsmall : cx.frame.size < 2147483648)
    (habove : (m.regs .rsp).toNat + 8 + 8 * (f.params.length - 6) ≤ 18446744073709551616)
    (hcopies : CopiesShape cx s cx.frame.copied copies)
    (hrun : Runs env guard (frameCode cx ++ (cx.frame.homed.map homeCode ++ copies)) m m') :
    ∃ m₁, Runs env guard [.push .rbp, .move .rbp .rsp] m m₁ ∧
      m'.regs .rbp = m.regs .rsp - 8#64 ∧
      (∀ x : Word, ¬(x - (m.regs .rsp - BitVec.ofNat 64 (cx.frame.size + 8))).toNat <
        cx.frame.size + 8 → m'.mem x = m.mem x) ∧
      ∀ c i δ N w, Receives cx f c i δ N → m₁.Holds w (Frame.incoming i) →
        Memory.Apart w N (m.regs .rsp - BitVec.ofNat 64 (cx.frame.size + 8)) (cx.frame.size + 8) →
        ∀ j < N, m'.mem (m'.regs .rbp + BitVec.ofInt 64 δ + BitVec.ofNat 64 j) =
          m.mem (w + BitVec.ofNat 64 j) := by
  obtain ⟨taken, -, hsound, -⟩ := hlowers.frame_sound
  obtain ⟨m₂, hframe, hrest⟩ := runs_append.1 hrun
  obtain ⟨m₃, hhomes, hcopied⟩ := runs_append.1 hrest
  obtain ⟨m₁, henter, hregs, hmem, hroom⟩ := runs_frameCode hsmall hframe
  obtain ⟨hrsp, hrbp, -, hsaved⟩ := runs_enter henter
  have hrbp₂ : m₂.regs .rbp = m.regs .rsp - 8#64 := (hregs .rbp (by decide)).trans hrbp
  have harea : m₂.regs .rbp - BitVec.ofNat 64 cx.frame.size =
      m.regs .rsp - BitVec.ofNat 64 (cx.frame.size + 8) := by
    rw [hrbp₂]
    bv_omega
  have hsettled := runs_homes hsound.moved hsmall hhomes
  have hincoming : ∀ {i w}, i < f.params.length → m₁.Holds w (Frame.incoming i) →
      m₃.Holds w (Frame.incoming i) := by
    intro i w hi hw
    refine hsettled.holds (by omega) (holds_congr hregs hmem ?_ hw)
    rcases Frame.incoming_cases i with ⟨r, hr, hin⟩ | ⟨-, hin⟩ <;> rw [hin]
    · have hargument := List.mem_of_getElem? hr
      rintro ⟨⟩
      revert hargument
      decide
    · exact nofun
  have hrbp₃ : m₃.regs .rbp = m₂.regs .rbp := hsettled.regs .rbp (by decide) (by decide)
  obtain ⟨hsettled', -, hcontent⟩ := hcopies.runs (arrange_copied hlowers hsmall (by omega)) hsmall
    hcopied
  rw [hrbp₃] at hsettled' hcontent
  have hrbp' : m'.regs .rbp = m₂.regs .rbp :=
    (hsettled'.regs .rbp (by decide) (by decide)).trans hrbp₃
  rw [harea] at hsettled hsettled' hcontent
  have hbelow : ∀ x : Word, ¬(x - (m.regs .rsp - BitVec.ofNat 64 (cx.frame.size + 8))).toNat <
      cx.frame.size + 8 → m₂.mem x = m.mem x := by
    intro x hx
    rw [hmem]
    refine hsaved x fun hin => hx ?_
    bv_omega
  refine ⟨m₁, henter, hrbp'.trans hrbp₂, fun x hx => ?_, fun c i δ N w hc hw hapart j hj => ?_⟩
  · rw [hsettled'.mem x hx, hsettled.mem x hx, hbelow x hx]
  · have hlt := (List.getElem?_eq_some_iff.1 hc.position).1
    have hN := sizeOf_lt hc.size
    rw [hrbp', hcontent c hc.mem δ N w hc.address hc.size
      (by rw [hc.source]; exact hincoming hlt hw)
      hapart j hj]
    have houtside := hapart (w + BitVec.ofNat 64 j) (by unfold sizeLimit at hN; bv_omega)
    rw [hsettled.mem _ houtside, hbelow _ houtside]

/-! ### Room for the prologue -/

/-- Every machine runs each of the lines. -/
def Total (env : Environment) (code : List Line) : Prop :=
  ∀ line ∈ code, ∀ m, ∃ m', RunsTo env [line] m m'

theorem Total.exists_runs (h : Total env code) (m : Machine) : ∃ m', RunsTo env code m m' := by
  induction code generalizing m with
  | nil => exact ⟨m, .nil m⟩
  | cons line code ih =>
    obtain ⟨m₁, hline⟩ := h line (by simp) m
    obtain ⟨m₂, hcode⟩ := ih (fun l hl => h l (by simp [hl])) m₁
    exact ⟨m₂, hline.append hcode⟩

theorem total_load {width : Width} {a : Address} :
    ∃ m', RunsTo env [.instruction .mov [.sized width q, .mem width a]] m m' := by
  cases width <;> exact ⟨_, .line rfl⟩

theorem total_store {width : Width} {a : Address} :
    ∃ m', RunsTo env [.instruction .mov [.mem width a, .sized width q]] m m' := by
  cases width <;> exact ⟨_, .line rfl⟩

theorem CopiesShape.total {cs : List CopiedParameter} (h : CopiesShape cx s cs code)
    (hcs : ∀ c ∈ cs, ∃ n, cx.table.sizeOf (.record c.record) = .ok (some n) ∧ n < 2147483648) :
    Total env code := by
  induction h with
  | nil => exact nofun
  | @cons c cs code₁ code₂ first _ ih =>
    intro line hline m
    rcases List.mem_append.1 hline with hline | hline
    · cases first with
      | nothing => cases hline
      | @copy incoming t c' source copied =>
        obtain ⟨n, hn, hsmall⟩ := hcs c (by simp)
        obtain ⟨leaves, hleaves, -, -⟩ := expands_of_sizeWithin hn
        obtain ⟨-, rfl⟩ := copies_of_emits hn hsmall hleaves copied
        rcases List.mem_cons.1 hline with rfl | hline
        · obtain ⟨w, hw⟩ : ∃ w, m.Holds w c.source := by
            cases hsource : c.source with
            | global symbol =>
              rw [hsource] at source
              cases source
            | register r => exact ⟨_, rfl⟩
            | frame δ => exact ⟨_, rfl⟩
          exact ⟨_, .line (exec_incoming source hw)⟩
        · obtain ⟨cell, -, hcell⟩ := List.mem_flatMap.1 hline
          rcases List.mem_pair.1 hcell with rfl | rfl
          · exact total_load
          · exact total_store
    · exact ih (fun c hc => hcs c (by simp [hc])) line hline m

theorem exists_runs_frameCode (hsmall : cx.frame.size < 2147483648)
    (hroom : env.stackLimit + cx.frame.size + 8 ≤ (m.regs .rsp).toNat) :
    ∃ m', RunsTo env (frameCode cx) m m' := by
  obtain ⟨m₁, hpush, hrsp, -, -⟩ := exists_push (m.regs .rbp)
    (show env.stackLimit + 8 ≤ (m.regs .rsp).toNat by omega)
  obtain ⟨m₂, hsub⟩ : ∃ m₂, RunsTo env (if cx.frame.size > 0 then
      [.instruction .sub [.reg .rsp, .imm (Int64.ofNat cx.frame.size)]] else [])
      (m₁.set .rbp (m₁.regs .rsp)) m₂ := by
    split
    · obtain ⟨hargument, hint⟩ := argument_size (m := m₁.set .rbp (m₁.regs .rsp)) hsmall
      have hlimit : env.stackLimit + (BitVec.ofNat 64 cx.frame.size).toInt ≤
          ((m₁.set .rbp (m₁.regs .rsp)).regs .rsp).toNat := by
        rw [regs_set_of_ne _ _ (by decide), hrsp, hint]
        bv_omega
      exact ⟨_, .line ((congrArg (Option.bind · _) hargument).trans (if_pos fun _ => hlimit))⟩
    · exact ⟨_, .nil _⟩
  obtain ⟨m₃, hand⟩ : ∃ m₃, RunsTo env (if cx.isEntry = true then
      [.instruction .and [.reg .rsp, .imm (-16)]] else []) m₂ m₃ := by
    split
    · exact ⟨_, .line rfl⟩
    · exact ⟨_, .nil _⟩
  exact ⟨m₃, .cons hpush (.cons rfl (hsub.append hand))⟩

/-- With room for the frame the prologue runs to its end. -/
theorem exists_runs_prologue (hlowers : cx.Lowers u f) (hsmall : cx.frame.size < 2147483648)
    (hcopies : CopiesShape cx s cx.frame.copied copies)
    (hroom : env.stackLimit + cx.frame.size + 8 ≤ (m.regs .rsp).toNat) :
    ∃ m', RunsTo env (frameCode cx ++ (cx.frame.homed.map homeCode ++ copies)) m m' := by
  obtain ⟨taken, -, hsound, -⟩ := hlowers.frame_sound
  obtain ⟨m₁, hframe⟩ := exists_runs_frameCode hsmall hroom
  have hhomes : Total env (cx.frame.homed.map homeCode) := by
    intro line hline m
    obtain ⟨p, -, rfl⟩ := List.mem_map.1 hline
    exact total_store
  have hcopied : Total env copies := hcopies.total fun c hc =>
    have ⟨_, used, n, _, hn, hle, hused, _⟩ := hsound.copied c hc
    ⟨n, hn, by omega⟩
  obtain ⟨m₂, hhomed⟩ := hhomes.exists_runs m₁
  obtain ⟨m₃, hdone⟩ := hcopied.exists_runs m₂
  exact ⟨m₃, hframe.append (hhomed.append hdone)⟩

end Lowering

end MiniJ
