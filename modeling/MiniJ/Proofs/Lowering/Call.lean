import MiniJ.Proofs.Lowering.Stack

/-!
# Calls

Caller and callee agree on where the arguments are, and a call leaves the stack and the registers
that were live as it found them.

## Main statements

* `Lowering.call_agrees` — the calling convention.
-/
namespace MiniJ

/-- A storage holds a word. -/
def Machine.Holds (m : Machine) (w : Word) : Storage → Prop
  | .register r => m.regs r = w
  | .frame displacement =>
    BitVec.ofNat 64 (m.mem.read (m.regs .rbp + BitVec.ofInt 64 displacement) 8) = w
  | .global _ => False

namespace Lowering

open Gen Machine

variable {lower : Lowering} {cx : Context} {u : UnitNode} {f : FunctionNode} {env : Environment}
  {guard : Mnemonic → List Operand → Machine → Prop} {bottom : Word} {s s' : State}
  {code : List Line} {id : NodeId} {ty : Ty} {m m' : Machine} {words : List Word} {w : Word}

theorem Computes.runs {args : List (NodeId × Bool)}
    (h : Computes lower cx env (Spares env bottom) s args code m words m') :
    Runs env (Spares env bottom) code m m' := by
  induction h with
  | nil s m => exact .nil m
  | cons first run pushed released others ih =>
    refine run.append (.step ?_ pushed ih)
    rintro width a rest ⟨⟩

/-- The word of an argument is what its code leaves in the register that is pushed. -/
theorem Computes.split {args : List (NodeId × Bool)} {i : Nat} {arg : NodeId} {byAddress : Bool}
    (h : Computes lower cx env (Spares env bottom) s args code m words m')
    (hi : args.reverse[i]? = some (arg, byAddress)) :
    ∃ front c r back t t' mᵢ, code = front ++ (c ++ .push r :: back) ∧
      ArgumentShape lower cx arg t r byAddress c t' ∧
      Runs env (Spares env bottom) (front ++ c) m mᵢ ∧
      Runs env (Spares env bottom) (.push r :: back) mᵢ m' ∧ words[i]? = some (mᵢ.regs r) := by
  induction h with
  | nil => simp at hi
  | @cons arg' byAddress' rest r c c' s t t' m m₁ m₂ m' words first run pushed released others ih =>
    have hpush : Runs env (Spares env bottom) [.push r] m₁ m₂ := by
      refine .step ?_ pushed (.nil m₂)
      rintro width a rest ⟨⟩
    have hlength : words.length = rest.reverse.length := by
      rw [others.length_eq, List.length_reverse]
    rw [List.reverse_cons] at hi
    by_cases hlt : i < rest.reverse.length
    · rw [List.getElem?_append_left hlt] at hi
      obtain ⟨front, d, q, back, t₁, t₂, mᵢ, rfl, hshape, hfront, hback, hword⟩ := ih hi
      refine ⟨c ++ .push r :: front, d, q, back, t₁, t₂, mᵢ, by simp, hshape, ?_, hback, ?_⟩
      · have happend := run.append (hpush.append hfront)
        simpa using happend
      · rw [List.getElem?_append_left (by omega)]
        exact hword
    · rw [List.getElem?_append_right (by omega), List.getElem?_singleton] at hi
      split at hi
      · next hzero =>
        cases hi
        refine ⟨[], c, r, c', s, t, m₁, rfl, first, run, hpush.append others.runs, ?_⟩
        rw [List.getElem?_append_right (by omega), hlength, hzero]
        rfl
      · cases hi

/-- After the callee has set up its frame pointer, the words are in the incoming storage of its
parameters. -/
theorem holds_incoming {mc entry : Machine} {back : Word} {ws : List Word} {i : Nat}
    (hregisters : ∀ q, Register.arguments[i]? = some q → mc.regs q = w)
    (hpushed : Pushed bottom m (words.drop 6 ++ ws) mc) (hw : words[i]? = some w)
    (hentry : mc.push env back = some entry)
    (hrun : Runs env guard [.push .rbp, .move .rbp .rsp] entry m') :
    m'.Holds w (Frame.incoming i) := by
  obtain ⟨m₁, hpush, hmove⟩ := runs_push_cons hrun
  obtain ⟨m₂, -, hexec, hdone⟩ := (runs_cons (by decide)).1 hmove
  obtain rfl := runs_nil.1 hdone
  cases hexec
  rcases Frame.incoming_cases i with ⟨q, hq, hin⟩ | ⟨hsix, hin⟩
  · have htracked := Register.mem_tracked_of_arguments (List.mem_of_getElem? hq)
    have hrsp := Register.ne_rsp_of_tracked htracked
    rw [hin, Holds, regs_set_of_ne _ _ (Register.ne_rbp_of_tracked htracked), regs_push hpush hrsp,
      regs_push hentry hrsp]
    exact hregisters q hq
  · have hstacked := ((hpushed.push hentry).push hpush).stacked
    have hindex : (entry.regs .rbp :: back :: (words.drop 6 ++ ws))[i - 6 + 2]? = some w := by
      have hlt : i - 6 < (words.drop 6).length := by
        have := (List.getElem?_eq_some_iff.1 hw).1
        rw [List.length_drop]
        omega
      rw [List.getElem?_cons_succ, List.getElem?_cons_succ, List.getElem?_append_left hlt,
        List.getElem?_drop, show 6 + (i - 6) = i from by omega]
      exact hw
    have haddress : (m₁.set .rbp (m₁.regs .rsp)).regs .rbp +
        BitVec.ofInt 64 (16 + 8 * ((i - 6 : Nat) : Int)) =
        m₁.regs .rsp + BitVec.ofNat 64 (8 * (i - 6 + 2)) := by
      rw [regs_set_self, ← BitVec.ofInt_natCast]
      congr 2
      omega
    rw [hin, Holds, haddress]
    exact hstacked.get hindex

/-- Where the word of an argument is when a call is reached: in its register, or on the stack behind
the other arguments that have none. -/
structure Passes (m : Machine) (i : Nat) (w : Word) : Prop where
  register : ∀ q, Register.arguments[i]? = some q → m.regs q = w
  stack : 6 ≤ i → BitVec.ofNat 64 (m.mem.read (m.regs .rsp + BitVec.ofNat 64 (8 * (i - 6))) 8) = w

theorem passes_of_pushed {mc : Machine} {ws : List Word} {n i : Nat}
    (hn : words.length = n) (hregisters : (Register.arguments.take n).map mc.regs = words.take 6)
    (hpushed : Pushed bottom m (words.drop 6 ++ ws) mc) (hw : words[i]? = some w) :
    Passes mc i w := by
  have hlt := (List.getElem?_eq_some_iff.1 hw).1
  refine ⟨fun q hq => ?_, fun hsix => ?_⟩
  · have hi : i < 6 := (List.getElem?_eq_some_iff.1 hq).1
    have hmap := congrArg (·[i]?) hregisters
    simp only [List.getElem?_map, List.getElem?_take] at hmap
    rw [if_pos (by omega), if_pos hi, hq, hw] at hmap
    exact Option.some.inj hmap
  · apply hpushed.stacked.get
    rw [List.getElem?_append_left (by rw [List.length_drop]; omega), List.getElem?_drop,
      show 6 + (i - 6) = i from by omega]
    exact hw

/-- Caller and callee agree on where arguments are. When a call is reached, the word that the code
of an argument computed is where the convention wants it, and once the callee has set up its frame
pointer, in the incoming storage of the parameter; behind the call, the stack pointer and the live
registers are as they were and the result is what the callee left in `rax`. -/
theorem call_agrees {name : String} {args : List NodeId} {result : Option Register}
    (haccepted : Accepted cx.arena cx.table cx.info) (hunit : cx.arena.unit? = some u)
    (hmember : ∃ d ∈ u.functions, cx.arena.kind d = .ok (.function f))
    (hframe : Frame.layout cx.arena cx.info cx.table f = .ok cx.frame)
    (hbody : ∃ r ∈ f.body, cx.arena.Below r id) (hk : cx.arena.kind id = .ok (.call name args))
    (hemits : Emits (callNode (ofArena cx.arena) id name args) cx s result code s')
    (hcallees : Conventional cx env bottom) :
    ∃ callee before after, Calls cx id args callee ∧
      code = before ++ .instruction .call [.label callee.label] :: after ∧
      (∀ m mc, Ready cx f bottom m → Runs env (Spares env bottom) before m mc →
        ∀ i arg, args[i]? = some arg → ∃ byAddress front c r back t t' mᵢ,
          callee.byAddress[i]? = some byAddress ∧ before = front ++ (c ++ .push r :: back) ∧
          ArgumentShape (ofArena cx.arena) cx arg t r byAddress c t' ∧
          Runs env (Spares env bottom) (front ++ c) m mᵢ ∧
          Runs env (Spares env bottom) (.push r :: back) mᵢ mc ∧ Passes mc i (mᵢ.regs r) ∧
          ∀ ret entry m', mc.push env ret = some entry →
            Runs env (fun _ _ _ => True) [.push .rbp, .move .rbp .rsp] entry m' →
            m'.Holds (mᵢ.regs r) (Frame.incoming i)) ∧
      ∀ m m', Ready cx f bottom m → Runs env (Spares env bottom) code m m' →
        ∃ entry exit, env.callee callee.label entry exit ∧ m'.regs .rsp = m.regs .rsp ∧
          (∀ q ∈ s.registers.live, m'.regs q = m.regs q) ∧
          ∀ r, result = some r → m'.regs r = exit.regs .rax ∧ r ∉ s.registers.live := by
  have hprogram := haccepted.checked_of_unit hunit
  have hlowers : cx.Lowers u f := ⟨hprogram, hmember, hframe⟩
  obtain ⟨r, hr, hbelow⟩ := hbody
  obtain ⟨ty, htyped⟩ := hlowers.typed hr hbelow hk rfl
  have hlower : Known (ofArena cx.arena) cx u f env bottom := keepsStack_atDepth hlowers hcallees _
  have hshape := callShape hemits
  have hclaims := hshape.claims hprogram hlower.disciplined htyped hk
  obtain @⟨callee, argCode, t, t', _, calls, arguments, returns, claimed⟩ := hshape
  have hlength := calls.length_byAddress hprogram htyped hk
  refine ⟨callee, _, _, calls, rfl, ?_, ?_⟩
  · intro m mc hready hrun i arg hi
    have hargs : ∀ p ∈ args, ∃ ty, cx.arena.Typed u cx.table cx.info p ty :=
      fun p hp => htyped.child hk hp
    obtain ⟨m₁, m₂, words, junk, hsaves, hcomputes, hpops, hwords, -, hregisters, hpushed⟩ :=
      run_beforeCall hlower hargs hlength arguments hready hrun
    obtain ⟨byAddress, hb⟩ : ∃ byAddress, callee.byAddress[i]? = some byAddress := by
      have hlt := (List.getElem?_eq_some_iff.1 hi).1
      exact ⟨_, List.getElem?_eq_getElem (hlength ▸ hlt)⟩
    have hpair : (args.zip callee.byAddress).reverse.reverse[i]? = some (arg, byAddress) := by
      rw [List.reverse_reverse, List.getElem?_zip_eq_some]
      exact ⟨hi, hb⟩
    obtain ⟨front, c, q, back, t₁, t₂, mᵢ, rfl, hshape, hfront, hback, hword⟩ :=
      hcomputes.split hpair
    have hpasses := passes_of_pushed hwords hregisters hpushed hword
    refine ⟨byAddress, s.registers.live.map Line.push ++ paddingCode (paddingOf s args.length) ++
      front,
      c, q, back ++ (Register.arguments.take args.length).map Line.pop, t₁, t₂, mᵢ, hb, ?_,
      hshape, ?_,
      hback.append hpops, hpasses, fun ret entry m' hentry hcallee => ?_⟩
    · simp [beforeCall]
    · rw [List.append_assoc]
      exact hsaves.append hfront
    · exact holds_incoming hpasses.register hpushed hword hentry hcallee
  · intro m m' hready hrun
    obtain ⟨entry, exit, hcallee, hkept, hlive, hresult⟩ := run_call hlowers hlower hcallees htyped
      hk calls arguments hclaims hready hrun
    refine ⟨entry, exit, hcallee, hkept.rsp, hlive, fun q hq => ⟨hresult q hq, ?_⟩⟩
    exact (hclaims.free q (by simp [hq])).2

end Lowering

namespace Sample

open Gen Lowering Machine Outcome

/-- The frame of the function: six parameters stay in their registers. -/
def frame : Frame := (Frame.layout arena info table function).toOption.get (by decide +kernel)

theorem layout_function : Frame.layout arena info table function = .ok frame := ok_get_toOption _

def context : Context := ⟨arena, info, table, [(30, "mj_f")], frame, false⟩

/-- The parameters are live and nothing is on the stack. -/
def state : State := { registers := ⟨Register.arguments, by decide⟩ }

/-- Arguments of the outer call. -/
def arguments : List NodeId := [10, 11, 12, 13, 14, 15, 23]

theorem kinds_call : arena.kind 24 = .ok (.call "f" arguments) ∧
    arena.kind 25 = .ok (.callStatement 24) := by decide +kernel

theorem kind_call : arena.kind 24 = .ok (.call "f" arguments) := kinds_call.1

theorem below_call : arena.Below 25 24 := .child kinds_call.2 (.head _) (.self 24)

/-- What is emitted for the outer call. -/
def called : Output (Option Register) :=
  (callNode (ofArena arena) 24 "f" arguments context state).toOption.get (by decide +kernel)

theorem callNode_eq : callNode (ofArena arena) 24 "f" arguments context state = .ok called :=
  ok_get_toOption _

theorem emits_called : Emits (callNode (ofArena arena) 24 "f" arguments) context state called.value
    called.code called.state := by
  have h := callNode_eq
  generalize called = output at h ⊢
  exact h

/-- Callees that return at once. -/
def returning (_ : String) (m : Machine) : Option Machine :=
  some (m.set .rsp (m.regs .rsp + 8#64))

def environment : Environment where
  symbols _ := 0
  stackLimit := 0
  callee name m m' := returning name m = some m'

theorem conventional (bottom : Word) : Conventional context environment bottom := by
  intro id name args callee _ _ m m' h
  cases h
  exact ⟨regs_set_self .., regs_set_of_ne _ _ (by decide), fun x _ => rfl⟩

/-- The word computed for the inner call is on the stack when the outer call is reached. -/
theorem inner_call_passes : ∃ callee before after, Calls context 24 arguments callee ∧
    called.code = before ++ .instruction .call [.label callee.label] :: after ∧
    ∀ m mc, Ready context function 4096 m →
      Runs environment (Spares environment 4096) before m mc → ∃ w, Passes mc 6 w := by
  obtain ⟨callee, before, after, hcalls, hcode, hpasses, -⟩ :=
    @call_agrees context unit function environment 4096 state called.state called.code 24 "f"
      arguments called.value accepted unit?_arena ⟨30, function_mem, kind_function⟩ layout_function
      ⟨25, .head _, below_call⟩ kind_call emits_called (conventional 4096)
  refine ⟨callee, before, after, hcalls, hcode, fun m mc hready hrun => ?_⟩
  obtain ⟨_, _, _, r, _, _, _, mᵢ, -, -, -, -, -, hw, -⟩ := hpasses m mc hready hrun 6 23 rfl
  exact ⟨mᵢ.regs r, hw⟩

end Sample

end MiniJ
