import MiniJ.Proofs.Lowering.Prologue
import Mathlib.Data.List.Basic

/-!
# Records passed by value

What is pushed for a record that is passed by value is its address. The prologue of the callee
copies what the record holds by then: the other arguments, which were computed in the meantime, may
have changed it. From then on the callee has a record of its own.

## Main statements

* `Lowering.record_copied` — what the callee finds in its record.
-/
namespace MiniJ

namespace Memory

/-! ### Parts of an area -/

/-- What lies in a part of an area lies in the area. -/
theorem toNat_sub_lt_of_part {x lo : Word} {d k n : Nat}
    (h : (x - (lo + BitVec.ofNat 64 d)).toNat < k) (hle : d + k ≤ n)
    (hn : n < 18446744073709551616) : (x - lo).toNat < n := by
  have hsplit : x - lo = x - (lo + BitVec.ofNat 64 d) + BitVec.ofNat 64 d := by
    rw [← BitVec.sub_sub, BitVec.sub_add_cancel]
  rw [hsplit, BitVec.toNat_add, BitVec.toNat_ofNat]
  omega

theorem toNat_sub_lt_of_lt {lo : Word} {j n : Nat} (hj : j < n) :
    (lo + BitVec.ofNat 64 j - lo).toNat < n := by
  rw [BitVec.add_comm, BitVec.add_sub_cancel, BitVec.toNat_ofNat]
  exact (Nat.mod_le _ _).trans_lt hj

/-- The word on top of an area. -/
theorem top_eq (r : Word) (n : Nat) :
    r - 8#64 = r - BitVec.ofNat 64 (n + 16) + BitVec.ofNat 64 (n + 8) := by
  have hsum : BitVec.ofNat 64 (n + 16) = 8#64 + BitVec.ofNat 64 (n + 8) := by
    rw [← BitVec.ofNat_add, show 8 + (n + 8) = n + 16 by omega]
  rw [hsum, ← BitVec.sub_sub, BitVec.sub_add_cancel]

/-- A displacement in a frame, counted from the end of the area below it. -/
theorem displaced_eq (r : Word) {n : Nat} {δ : Int} (hlower : -(n : Int) ≤ δ) :
    r - 8#64 - 8#64 + BitVec.ofInt 64 δ =
      r - BitVec.ofNat 64 (n + 16) + BitVec.ofNat 64 (n + δ).toNat := by
  obtain ⟨k, rfl⟩ : ∃ k : Nat, δ = k - n := ⟨(n + δ).toNat, by omega⟩
  have hδ : BitVec.ofInt 64 (k - n : Int) = BitVec.ofNat 64 k - BitVec.ofNat 64 n := by
    rw [Int.sub_eq_add_neg, BitVec.ofInt_add, BitVec.ofInt_neg, BitVec.ofInt_natCast,
      BitVec.ofInt_natCast, BitVec.sub_eq_add_neg]
  have hsum : BitVec.ofNat 64 (n + 16) = 16#64 + BitVec.ofNat 64 n := by
    rw [← BitVec.ofNat_add, Nat.add_comm]
  have hk : ((n : Int) + (k - n)).toNat = k := by omega
  rw [hδ, hsum, hk, BitVec.sub_sub r, show 8#64 + 8#64 = 16#64 from rfl, ← BitVec.sub_sub,
    BitVec.sub_eq_add_neg (BitVec.ofNat 64 k), BitVec.sub_eq_add_neg (r - 16#64), BitVec.add_assoc,
    BitVec.add_comm (-BitVec.ofNat 64 n)]

end Memory

namespace Lowering

open Gen Machine

variable {lower : Lowering} {cx : Context} {u : UnitNode} {f g : FunctionNode} {env : Environment}
  {bottom : Word} {s s' t : State} {code block : List Line} {id d p : NodeId}
  {texts texts' : List String} {b : Binder} {label record : String} {frame : Frame} {i : Nat}
  {m m' mc entry : Machine}

/-! ### The caller -/

/-- The word of an argument is what its code computes, and the callee finds it where the parameter
comes in. The arguments on the stack lie below the end of memory. -/
theorem run_argument {args : List NodeId} {byAddress : List Bool} {argCode : List Line}
    {arg : NodeId} {addressed : Bool} (hlower : Known lower cx u f env bottom)
    (htyped : ∀ p ∈ args, ∃ ty, cx.arena.Typed u cx.table cx.info p ty)
    (hlength : byAddress.length = args.length)
    (harguments : ArgumentsShape lower cx
      (s.grown (s.registers.live.length + paddingOf s args.length))
      (args.zip byAddress).reverse argCode t) (harg : args[i]? = some arg)
    (haddressed : byAddress[i]? = some addressed) (hready : Ready cx f bottom m)
    (hrun : Runs env (Spares env bottom) (beforeCall s args.length argCode) m mc) :
    (∃ front c r back t₁ t₂ mᵢ, beforeCall s args.length argCode = front ++ (c ++ .push r :: back) ∧
      ArgumentShape lower cx arg t₁ r addressed c t₂ ∧
      Runs env (Spares env bottom) (front ++ c) m mᵢ ∧
      Runs env (Spares env bottom) (.push r :: back) mᵢ mc ∧
      ∀ ret entry m', mc.push env ret = some entry →
        RunsTo env [.push .rbp, .move .rbp .rsp] entry m' →
        m'.Holds (mᵢ.regs r) (Frame.incoming i)) ∧
      (mc.regs .rsp).toNat + 8 * (args.length - 6) < 18446744073709551616 := by
  obtain ⟨m₁, m₂, words, junk, hsaves, hcomputes, hpops, hwords, -, hregisters, hpushed⟩ :=
    run_beforeCall hlower htyped hlength harguments hready hrun
  have hpair : (args.zip byAddress).reverse.reverse[i]? = some (arg, addressed) := by
    rw [List.reverse_reverse, List.getElem?_zip_eq_some]
    exact ⟨harg, haddressed⟩
  obtain ⟨front, c, r, back, t₁, t₂, mᵢ, rfl, hshape, hfront, hback, hword⟩ := hcomputes.split hpair
  have hpasses := passes_of_pushed hwords hregisters hpushed hword
  refine ⟨⟨s.registers.live.map Line.push ++ paddingCode (paddingOf s args.length) ++ front, c, r,
    back ++ (Register.arguments.take args.length).map Line.pop, t₁, t₂,
    mᵢ, by simp [beforeCall], hshape,
    ?_, hback.append hpops, fun ret entry m' hentry hcallee => ?_⟩, ?_⟩
  · rw [List.append_assoc]
    exact hsaves.append hfront
  · exact holds_incoming hpasses.register hpushed hword hentry hcallee
  · have hrsp := hpushed.rsp
    have hlt := (m.regs .rsp).isLt
    simp only [List.length_append, List.length_drop, hwords] at hrsp
    omega

/-- The code of an argument that is passed by address ends with this address. -/
theorem ArgumentShape.exists_lea {r : Register} (h : ArgumentShape lower cx id s r true code s') :
    ∃ c a, code = c ++ [.instruction .lea [.reg r, .addr a]] := by
  cases h
  exact ⟨_, _, rfl⟩

/-! ### The callee -/

/-- What a function with this frame and label is lowered with. -/
def enter (cx : Context) (frame : Frame) (label : String) : Context :=
  { cx with frame, isEntry := label = entryLabel }

/-- The code of a function starts with its prologue. -/
theorem prologue_of_function (hlayout : Frame.layout cx.arena cx.info cx.table g = .ok frame)
    (hblock : function cx.arena cx.info cx.table cx.labels texts label g = .ok (block, texts')) :
    ∃ t copies rest, CopiesShape (enter cx frame label) t frame.copied copies ∧
      block = .label label ::
        ((frameCode (enter cx frame label) ++ (frame.homed.map homeCode ++ copies)) ++ rest) := by
  simp only [function, hlayout, Outcome.bind_eq_ok, Outcome.pure_eq_ok] at hblock
  obtain ⟨_, hframe, output, houtput, hresult⟩ := hblock
  cases hframe
  cases hresult
  have hemits : Emits (functionBody label g) (enter cx frame label) { texts } output.value
      output.code
    output.state := houtput
  generalize output.code = block, output.state = s' at hemits
  cases functionShape hemits with
  | @mk t _ copies body returns claimed copied lowered ends =>
    refine ⟨t, copies, body ++ tailCode (enter cx frame label) returns, copied, ?_⟩
    simp only [List.append_assoc]
    rfl

/-- The function that a call stands for is one of the program, and is passed the addresses of its
records. -/
theorem called_function {name : String} {args : List NodeId} {ty : Ty} {callee : Callee}
    (hprogram : CheckedProgram cx.arena u cx.table cx.info)
    (htyped : cx.arena.Typed u cx.table cx.info id ty)
    (hk : cx.arena.kind id = .ok (.call name args)) (hcalls : Calls cx id args callee)
    (htarget : cx.info.callTarget id = some (.function d))
    (hg : cx.arena.kind d = .ok (.function g)) (hlabel : cx.labels.lookup d = some label)
    (hp : g.params[i]? = some p) (hb : cx.arena.kind p = .ok (.declaration b)) :
    d ∈ u.functions ∧ callee.label = label ∧ args.length = g.params.length ∧
      callee.byAddress[i]? = some b.byAddress := by
  obtain ⟨sig, hsig, harity, hsignature, -⟩ := htyped.call_cases hk
  have hdefinition : sig.definition = some d := by
    rw [hsignature, Typing.target] at htarget
    split at htarget <;> cases htarget
    assumption
  obtain ⟨hd, g', hg', -, -, hbinders⟩ := hsig.function hdefinition
  cases hg.symm.trans hg'
  have hdeclares := hprogram.declares_params hd hg hbinders
  have hbinder : sig.params[i]? = some b := by
    obtain ⟨hi, rfl⟩ := List.getElem?_eq_some_iff.1 hp
    have hi' : i < sig.params.length := hdeclares.length_eq ▸ hi
    have hdeclared := hdeclares.get hi hi'
    cases hdeclared.symm.trans hb
    exact List.getElem?_eq_getElem hi'
  refine ⟨hd, ?_, harity.trans hdeclares.length_eq.symm, ?_⟩
  · cases hcalls with
    | function target found scalar binders labelled =>
      cases htarget.symm.trans target
      exact Option.some.inj (labelled.symm.trans hlabel)
    | builtin target => cases htarget.symm.trans target
  · rw [(hcalls.of_signature hprogram hsig harity hsignature).1, List.getElem?_map, hbinder]
    rfl

/-! ### The record -/

/-- The prologue of a callee copies the bytes that a record has when the call is reached, to a place
that is apart from them. -/
theorem run_callee {c : CopiedParameter} {δ : Int} {N : Nat} {copies : List Line} {w ret : Word}
    (hlowers : cx.Lowers u g) (hsmall : cx.frame.size < 2147483648)
    (hcopies : CopiesShape cx s cx.frame.copied copies) (hreceives : Receives cx g c i δ N)
    (habove : (mc.regs .rsp).toNat + 8 * (g.params.length - 6) < 18446744073709551616)
    (hentry : mc.push env ret = some entry)
    (hincoming : ∀ m', RunsTo env [.push .rbp, .move .rbp .rsp] entry m' →
      m'.Holds w (Frame.incoming i))
    (hrun : RunsTo env (frameCode cx ++ (cx.frame.homed.map homeCode ++ copies)) entry m')
    (hapart : Memory.Apart w N (mc.regs .rsp - BitVec.ofNat 64 (cx.frame.size + 16))
      (cx.frame.size + 16)) :
    (∀ j < N, m'.mem (m'.regs .rbp + BitVec.ofInt 64 δ + BitVec.ofNat 64 j) =
      mc.mem (w + BitVec.ofNat 64 j)) ∧
      Memory.Apart w N (m'.regs .rbp + BitVec.ofInt 64 δ) N := by
  obtain ⟨hroom, rfl⟩ := push_eq_some hentry
  have hN := SymbolTable.sizeOf_lt hreceives.size
  unfold sizeLimit at hN
  have hlower := hreceives.lower
  have hupper := hreceives.upper
  generalize hm : ({ mc.set .rsp (mc.regs .rsp - 8#64) with
    mem := mc.mem.write (mc.regs .rsp - 8#64) 8 ret.toNat } : Machine) = entry at *
  have hrsp : entry.regs .rsp = mc.regs .rsp - 8#64 := by
    rw [← hm]
    exact regs_set_self mc .rsp _
  have hmem : entry.mem = mc.mem.write (mc.regs .rsp - 8#64) 8 ret.toNat := by rw [← hm]
  have hspan : (entry.regs .rsp).toNat + 8 + 8 * (g.params.length - 6) ≤ 18446744073709551616 := by
    have hpushed : (mc.regs .rsp - 8#64).toNat = (mc.regs .rsp).toNat - 8 :=
      BitVec.toNat_sub_of_le (BitVec.le_def.2 (by simpa using hroom))
    rw [hrsp, hpushed]
    omega
  obtain ⟨m₁, henter, hrbp, -, hcontent⟩ := runs_prologue hlowers hsmall hspan hcopies hrun
  have harea : mc.regs .rsp - 8#64 - BitVec.ofNat 64 (cx.frame.size + 8) =
      mc.regs .rsp - BitVec.ofNat 64 (cx.frame.size + 16) := by
    rw [Memory.top_eq _ cx.frame.size, BitVec.add_sub_cancel]
  have hframe : Memory.Apart w N (entry.regs .rsp - BitVec.ofNat 64 (cx.frame.size + 8))
      (cx.frame.size + 8) := by
    rw [hrsp, harea]
    exact fun x hx hx' => hapart x hx (hx'.trans (by omega))
  refine ⟨fun j hj => ?_, fun x hx hx' => hapart x hx ?_⟩
  · rw [hcontent c i δ N w hreceives (hincoming m₁ henter) hframe j hj, hmem]
    refine if_neg fun hin => hapart (w + BitVec.ofNat 64 j) (Memory.toNat_sub_lt_of_lt hj) ?_
    rw [Memory.top_eq _ cx.frame.size] at hin
    exact Memory.toNat_sub_lt_of_part hin (by omega) (by omega)
  · rw [hrbp, hrsp, Memory.displaced_eq _ hlower] at hx'
    exact Memory.toNat_sub_lt_of_part hx' (by omega) (by omega)

/-- A record that is passed by value is copied when the callee is entered. The word passed for it is
the address that the code of the argument computes; if the record is not in the part of the stack
that the prologue uses, the parameter of the callee then has the bytes that the record has when the
call is reached. So it has those that the record had when the argument was computed exactly if the
arguments computed since then have not changed them. Writing to the parameter does not change the
record. -/
theorem record_copied {name : String} {args : List NodeId} {result : Option Register}
    (haccepted : Accepted cx.arena cx.table cx.info) (hunit : cx.arena.unit? = some u)
    (hmember : ∃ d ∈ u.functions, cx.arena.kind d = .ok (.function f))
    (hframe : Frame.layout cx.arena cx.info cx.table f = .ok cx.frame)
    (hbody : ∃ r ∈ f.body, cx.arena.Below r id) (hk : cx.arena.kind id = .ok (.call name args))
    (hemits : Emits (callNode (ofArena cx.arena) id name args) cx s result code s')
    (hcallees : Conventional cx env bottom)
    (htarget : cx.info.callTarget id = some (.function d))
    (hg : cx.arena.kind d = .ok (.function g)) (hlabel : cx.labels.lookup d = some label)
    (hlayout : Frame.layout cx.arena cx.info cx.table g = .ok frame)
    (hsmall : frame.size < 2147483648)
    (hblock : function cx.arena cx.info cx.table cx.labels texts label g = .ok (block, texts'))
    (hp : g.params[i]? = some p) (hb : cx.arena.kind p = .ok (.declaration b))
    (hty : b.ty = .record record) (hvalue : b.isReference = false) :
    ∃ before after prologue rest δ N, code = before ++ .instruction .call [.label label] :: after ∧
      block = .label label :: (prologue ++ rest) ∧
      frame.slot? p = some ⟨.frame δ, .record record, false⟩ ∧
      cx.table.sizeOf (.record record) = .ok (some N) ∧
      (∀ m : Machine, env.stackLimit + frame.size + 8 ≤ (m.regs .rsp).toNat →
        ∃ m', RunsTo env prologue m m') ∧
      ∀ m mc, Ready cx f bottom m → Runs env (Spares env bottom) before m mc →
        ∃ arg front c r back t t' mᵢ, args[i]? = some arg ∧
          before = front ++ (c ++ .push r :: back) ∧
          ArgumentShape (ofArena cx.arena) cx arg t r true c t' ∧
          Runs env (Spares env bottom) (front ++ c) m mᵢ ∧
          Runs env (Spares env bottom) (.push r :: back) mᵢ mc ∧
          ∀ ret entry m', mc.push env ret = some entry → RunsTo env prologue entry m' →
            Memory.Apart (mᵢ.regs r) N (mc.regs .rsp - BitVec.ofNat 64 (frame.size + 16))
              (frame.size + 16) →
            (∀ j < N, m'.mem (m'.regs .rbp + BitVec.ofInt 64 δ + BitVec.ofNat 64 j) =
              mc.mem (mᵢ.regs r + BitVec.ofNat 64 j)) ∧
            ((∀ j < N, m'.mem (m'.regs .rbp + BitVec.ofInt 64 δ + BitVec.ofNat 64 j) =
                mᵢ.mem (mᵢ.regs r + BitVec.ofNat 64 j)) ↔
              ∀ j < N, mc.mem (mᵢ.regs r + BitVec.ofNat 64 j) =
                mᵢ.mem (mᵢ.regs r + BitVec.ofNat 64 j)) ∧
            ∀ (mem : Memory) (o k v : Nat), o + k ≤ N → ∀ j < N,
              mem.write (m'.regs .rbp + BitVec.ofInt 64 δ + BitVec.ofNat 64 o) k v
                (mᵢ.regs r + BitVec.ofNat 64 j) = mem (mᵢ.regs r + BitVec.ofNat 64 j) := by
  have hprogram := haccepted.checked_of_unit hunit
  have hlowers : cx.Lowers u f := ⟨hprogram, hmember, hframe⟩
  obtain ⟨x, hx, hbelow⟩ := hbody
  obtain ⟨ty, htyped⟩ := hlowers.typed hx hbelow hk rfl
  have hlower : Known (ofArena cx.arena) cx u f env bottom := keepsStack_atDepth hlowers hcallees _
  obtain @⟨callee, argCode, t, t', _, calls, arguments, returns, claimed⟩ := callShape hemits
  obtain ⟨hd, rfl, hlength, haddressed⟩ := called_function hprogram htyped hk calls htarget hg
    hlabel hp hb
  have hentered : (enter cx frame callee.label).Lowers u g := ⟨hprogram, ⟨d, hd, hg⟩, hlayout⟩
  obtain ⟨tg, copies, rest, hcopies, rfl⟩ := prologue_of_function hlayout hblock
  obtain ⟨c, δ, N, hreceives, rfl, rfl⟩ := exists_receives hentered hsmall hp hb hty hvalue
  refine ⟨_, _, _, rest, δ, N, rfl, rfl, hreceives.slot, hreceives.size,
    fun m hroom => exists_runs_prologue hentered hsmall hcopies hroom, fun m mc hready hrun => ?_⟩
  obtain ⟨arg, harg⟩ : ∃ arg, args[i]? = some arg := by
    have hi := (List.getElem?_eq_some_iff.1 hp).1
    exact ⟨_, List.getElem?_eq_getElem (hlength ▸ hi)⟩
  obtain ⟨⟨front, ca, r, back, t₁, t₂, mᵢ, hbefore, hshape, hfront, hback, hincoming⟩, hspan⟩ :=
    run_argument hlower (fun q hq => htyped.child hk hq) (calls.length_byAddress hprogram htyped hk)
      arguments harg haddressed hready hrun
  have haddress : b.byAddress = true := by simp [Binder.byAddress, hty, Ty.isRecord]
  rw [haddress] at hshape
  refine ⟨arg, front, ca, r, back, t₁, t₂, mᵢ, harg, hbefore, hshape, hfront, hback,
    fun ret entry m' hentry hprologue hapart => ?_⟩
  obtain ⟨hcopied, hown⟩ := run_callee hentered hsmall hcopies hreceives (hlength ▸ hspan) hentry
    (fun m₁ => hincoming ret entry m₁ hentry) hprologue hapart
  refine ⟨hcopied, ?_, fun mem o k v hok j hj => ?_⟩
  · exact forall₂_congr fun j hj => by rw [hcopied j hj]
  · have hN := SymbolTable.sizeOf_lt hreceives.size
    unfold sizeLimit at hN
    exact if_neg fun hin => hown (mᵢ.regs r + BitVec.ofNat 64 j) (Memory.toNat_sub_lt_of_lt hj)
      (Memory.toNat_sub_lt_of_part hin hok (by omega))

end Lowering

namespace Machine

variable {env : Environment} {bottom : Word} {guard : Mnemonic → List Operand → Machine → Prop}
  {code : List Line} {m m' : Machine}

/-- What an instruction stores is addressed from the frame pointer. -/
def storesInFrame : List Operand → Bool
  | .mem _ a :: _ => a.base == .register .rbp
  | _ => true

theorem spares_of_storesInFrame {mnemonic : Mnemonic} {operands : List Operand}
    (h : storesInFrame operands = true) : Spares env bottom mnemonic operands m := by
  rintro width a rest rfl hbase
  exact absurd (eq_of_beq h) hbase

/-- Runs code that has no calls and stores in the frame only. -/
def compute? (env : Environment) : List Line → Machine → Option Machine
  | [], m => some m
  | .label _ :: _, _ => none
  | .instruction mnemonic operands :: rest, m =>
    if storesInFrame operands then (m.exec env mnemonic operands).bind (compute? env rest) else none

theorem runs_of_compute? (hguard : ∀ mnemonic operands m, storesInFrame operands = true →
      guard mnemonic operands m) (h : compute? env code m = some m') :
      Runs env guard code m m' := by
  induction code generalizing m with
  | nil =>
    cases h
    exact .nil m'
  | cons line rest ih =>
    cases line with
    | label name => cases h
    | instruction mnemonic operands =>
      rw [compute?] at h
      split at h
      · next hstores =>
        obtain ⟨m₁, hexec, hrest⟩ := Option.bind_eq_some_iff.1 h
        exact .step (hguard mnemonic operands m hstores) hexec (ih hrest)
      · cases h

end Machine

/-! ### A program -/

namespace Recount

open Gen Lowering Machine Outcome

/-- A call that passes a record by value and counts it up in an argument to the left. -/
def words : List String :=
  ["record", "R", "\x7b", "int", "x", ";", "\x7d",
    "void", "g", "(", "int", "a", ",", "R", "r", ")", "\x7b", "\x7d",
    "void", "f", "(", ")", "\x7b", "R", "q", ";", "g", "(", "q", ".", "x", "++", ",", "q", ")", ";",
    "\x7d"]

def bytes : List UInt8 := words.flatMap fun w => w.toList.map (fun c => UInt8.ofNat c.toNat) ++ [32]

def program : Arena × SymbolTable × SemanticInfo := (accept? 2 bytes).get (by decide +kernel)

theorem accept?_bytes : accept? 2 bytes = some program := by
  rw [program, Option.some_get]

attribute [irreducible] program

def arena : Arena := program.1

def table : SymbolTable := program.2.1

def info : SemanticInfo := program.2.2

theorem accepted : Accepted arena table info :=
  accepted_of_accept? accept?_bytes

def unit : UnitNode := ⟨[], [3], [6, 15]⟩

/-- The function that is called, and the one that calls it. -/
def callee : FunctionNode := ⟨"g", .void, [4, 5], []⟩

def caller : FunctionNode := ⟨"f", .void, [], [8, 14]⟩

/-- Both frames hold one record. -/
def callerFrame : Frame where
  slots := [(7, ⟨.frame (-8), .record "R", false⟩)]
  size := 16

def calleeFrame : Frame where
  slots := [(5, ⟨.frame (-8), .record "R", false⟩), (4, ⟨.register .rdi, .int, false⟩)]
  size := 16
  copied := [⟨5, .register .rsi, .frame (-8), "R"⟩]

def context : Context := ⟨arena, info, table, [(6, "mj_g"), (15, "mj_f")], callerFrame, false⟩

/-- What is emitted for the call. -/
def called : Output (Option Register) :=
  (callNode (ofArena arena) 13 "g" [11, 12] context
    { registers := ⟨[], List.nil_sublist _⟩ }).toOption.get (by decide +kernel)

/-- The code of the function that is called. -/
def compiled : List Line × List String :=
  (Lowering.function arena info table context.labels [] "mj_g" callee).toOption.get
    (by decide +kernel)

/-- The address of the record is computed before the record is counted up. -/
def addressing : List Line := [.instruction .lea [.reg .rax, .addr (.frame (-8))]]

def counting : List Line :=
  [.push .rax, .instruction .mov [.reg .rax, .mem .qword (.frame (-8))], .move .rbx .rax,
    .instruction .add [.reg .rbx, .imm 1], .instruction .mov [.mem .qword (.frame (-8)), .reg .rbx],
    .push .rax, .pop .rdi, .pop .rsi]

/-- The callee copies what is there when it is entered. -/
def copying : List Line :=
  [.push .rbp, .move .rbp .rsp, .instruction .sub [.reg .rsp, .imm 16], .move .r11 .rsi,
    .instruction .mov [.reg .rax, .mem .qword (.register .r11)],
    .instruction .mov [.mem .qword (.frame (-8)), .reg .rax]]

/-- The nodes of the call and of its callee, the frames of both functions, and their code. -/
theorem facts : (arena.unit? = some unit ∧ arena.kind 6 = .ok (.function callee) ∧
      arena.kind 15 = .ok (.function caller) ∧ arena.kind 14 = .ok (.callStatement 13) ∧
      arena.kind 13 = .ok (.call "g" [11, 12]) ∧ info.callTarget 13 = some (.function 6) ∧
      arena.kind 5 = .ok (.declaration ⟨"r", .record "R", false⟩)) ∧
    ((Frame.layout arena info table caller).toOption = some callerFrame ∧
      (Frame.layout arena info table callee).toOption = some calleeFrame ∧
      table.sizeOf (.record "R") = .ok (some 8)) ∧
    called.code = addressing ++ counting ++ [.instruction .call [.label "mj_g"]] ∧
    compiled.1.take 7 = .label "mj_g" :: copying ∧
    ((address (ofArena arena) 12 context {}).toOption.map fun o => (o.value, o.code)) =
      some (.rax, addressing) := by decide +kernel

theorem emits_called : Emits (callNode (ofArena arena) 13 "g" [11, 12]) context {} called.value
    called.code called.state := by
  have h : callNode (ofArena arena) 13 "g" [11, 12] context {} = .ok called := ok_get_toOption _
  generalize called = output at h ⊢
  exact h

theorem function_compiled : Lowering.function arena info table context.labels [] "mj_g" callee =
    .ok compiled := ok_get_toOption _

/-- Callees that return at once. -/
def environment : Environment where
  symbols _ := 0
  stackLimit := 0
  callee _ m m' := m' = m.set .rsp (m.regs .rsp + 8#64)

theorem conventional (bottom : Word) : Conventional context environment bottom := by
  intro id name args callee _ _ m m' h
  cases h
  exact ⟨regs_set_self .., regs_set_of_ne _ _ (by decide), fun x _ => rfl⟩

/-- The record is zero. -/
def machine : Machine where
  regs r := if r = .rsp then 4080#64 else if r = .rbp then 4096#64 else 0#64
  mem _ := 0

/-- Where the record has been addressed, where the call is reached, where it is entered, and where
the record has been copied. -/
def evaluated : Machine := (compute? environment addressing machine).get (by decide +kernel)

def reached : Machine := (compute? environment counting evaluated).get (by decide +kernel)

def entered : Machine := (reached.push environment 0#64).get (by decide +kernel)

def copied : Machine := (compute? environment copying entered).get (by decide +kernel)

theorem ready_machine : Ready context caller 4080 machine := ⟨by decide, by decide, by decide⟩

theorem runs_counting : Runs environment (Spares environment 4080) addressing machine evaluated ∧
    Runs environment (Spares environment 4080) counting evaluated reached :=
  ⟨runs_of_compute? (fun _ _ _ => spares_of_storesInFrame) (Option.some_get _).symm,
    runs_of_compute? (fun _ _ _ => spares_of_storesInFrame) (Option.some_get _).symm⟩

theorem runs_copying : RunsTo environment copying entered copied :=
  runs_of_compute? (fun _ _ _ _ => trivial) (Option.some_get _).symm

theorem push_reached : reached.push environment 0#64 = some entered := (Option.some_get _).symm

/-- Where the record and the stack are, and the bytes of the record: it is counted up before the
call is reached, and copied as it is then. -/
theorem measured : evaluated.regs .rax = 4088#64 ∧ reached.regs .rsp = 4080#64 ∧
    environment.stackLimit + calleeFrame.size + 8 ≤ (entered.regs .rsp).toNat ∧
    reached.mem (evaluated.regs .rax + BitVec.ofNat 64 0) ≠
      evaluated.mem (evaluated.regs .rax + BitVec.ofNat 64 0) ∧
    copied.mem (copied.regs .rbp + BitVec.ofInt 64 (-8)) ≠ evaluated.mem (evaluated.regs .rax) := by
  decide +kernel

/-- What the code of the argument gives is the address of the record. -/
theorem code_argument : ∃ t, Emits (address (ofArena arena) 12) context {} .rax addressing t := by
  obtain ⟨⟨value, code, t⟩, hoption, hpair⟩ := Option.map_eq_some_iff.1 facts.2.2.2.2
  cases hpair
  exact ⟨t, eq_ok_of_toOption hoption⟩

/-- The record is above the stack of the call. -/
theorem record_apart : Memory.Apart (evaluated.regs .rax) 8
    (reached.regs .rsp - BitVec.ofNat 64 (calleeFrame.size + 16)) (calleeFrame.size + 16) := by
  rw [measured.1, measured.2.1, calleeFrame]
  intro x hx hx'
  bv_omega

/-- The parameter has the bytes that the record has when it is passed, and not those that it had
when the argument was computed. -/
theorem counted_copied : ∃ prologue rest m', compiled.1 = .label "mj_g" :: (prologue ++ rest) ∧
    RunsTo environment prologue entered m' ∧
    (∀ j < 8, m'.mem (m'.regs .rbp + BitVec.ofInt 64 (-8) + BitVec.ofNat 64 j) =
      reached.mem (evaluated.regs .rax + BitVec.ofNat 64 j)) ∧
    ¬∀ j < 8, m'.mem (m'.regs .rbp + BitVec.ofInt 64 (-8) + BitVec.ofNat 64 j) =
      evaluated.mem (evaluated.regs .rax + BitVec.ofNat 64 j) := by
  obtain ⟨⟨hunit, hcallee, hcaller, hstatement, hcall, htarget, hparameter⟩,
    ⟨hframe, hlayout, hrecord⟩, hcode', -, -⟩ := facts
  obtain ⟨before, after, prologue, rest, δ, N, hcode, hblock, hslot, hN, hprologue, hcopies⟩ :=
    @record_copied context unit caller callee environment 4080 {} called.state called.code
      compiled.1
      13 6 5 [] compiled.2 ⟨"r", .record "R", false⟩ "mj_g" "R" calleeFrame 1 "g" [11, 12]
        called.value
      accepted hunit ⟨15, by decide, hcaller⟩ (eq_ok_of_toOption hframe)
      ⟨14, by decide, .child hstatement (.head _) (.self 13)⟩ hcall emits_called (conventional 4080)
      htarget hcallee (by decide) (eq_ok_of_toOption hlayout) (by decide) function_compiled rfl
      hparameter rfl rfl
  cases hslot
  cases hrecord.symm.trans hN
  -- the only call ends the code, and the only address in front of it is that of the record
  obtain ⟨rfl, -, rfl⟩ := (List.append_cons_inj_of_notMem (by decide) (by decide)).1
    (hcode'.symm.trans hcode)
  obtain ⟨arg, front, c, r, back, t, t', mᵢ, harg, hsplit, hshape, hfront, hback, hcopied⟩ :=
    hcopies machine reached ready_machine (runs_counting.1.append runs_counting.2)
  obtain ⟨c, a, rfl⟩ := hshape.exists_lea
  have hlea : Line.instruction .lea [.reg r, .addr a] ∉ counting := by
    simp [counting, Line.push, Line.pop, Line.move]
  have hparts : [] ++ Line.instruction .lea [.reg .rax, .addr (.frame (-8))] :: counting =
      (front ++ c) ++ Line.instruction .lea [.reg r, .addr a] :: (.push r :: back) := by
    simpa [addressing] using hsplit
  obtain ⟨hempty, hfirst, -⟩ := (List.append_cons_inj_of_notMem List.not_mem_nil hlea).1 hparts
  obtain ⟨rfl, rfl⟩ := List.nil_eq_append_iff.1 hempty
  cases hfirst
  obtain rfl : mᵢ = evaluated := by
    obtain ⟨m₁, -, hexec, hdone⟩ := (runs_cons (by decide)).1 hfront
    obtain ⟨m₂, -, hexec', hdone'⟩ := (runs_cons (by decide)).1 runs_counting.1
    cases hexec.symm.trans hexec'
    rw [runs_nil.1 hdone, runs_nil.1 hdone']
  obtain ⟨-, -, hspace, hchanged, -⟩ := measured
  obtain ⟨m', hrun⟩ := hprologue entered hspace
  obtain ⟨hbytes, hiff, -⟩ := hcopied 0#64 entered m' push_reached hrun record_apart
  exact ⟨prologue, rest, m', hblock, hrun, hbytes, fun h => hchanged (hiff.1 h 0 (by decide))⟩

/-- The parameter does not have the byte that the record had when the argument was computed. -/
theorem not_snapshot : Accepted arena table info ∧
    arena.kind 13 = .ok (.call "g" [11, 12]) ∧ info.callTarget 13 = some (.function 6) ∧
    arena.kind 6 = .ok (.function callee) ∧ callee.params[1]? = some 5 ∧
    arena.kind 5 = .ok (.declaration ⟨"r", .record "R", false⟩) ∧
    Emits (callNode (ofArena arena) 13 "g" [11, 12]) context {} called.value
      (addressing ++ counting ++ [.instruction .call [.label "mj_g"]]) called.state ∧
    (∃ t, Emits (address (ofArena arena) 12) context {} .rax addressing t) ∧
    compiled.1.take 7 = .label "mj_g" :: copying ∧ Ready context caller 4080 machine ∧
    Runs environment (Spares environment 4080) addressing machine evaluated ∧
    Runs environment (Spares environment 4080) counting evaluated reached ∧
    reached.push environment 0#64 = some entered ∧ RunsTo environment copying entered copied ∧
    copied.mem (copied.regs .rbp + BitVec.ofInt 64 (-8)) ≠ evaluated.mem (evaluated.regs .rax) := by
  obtain ⟨⟨-, hcallee, -, -, hcall, htarget, hparameter⟩, -, hcode, hblock, -⟩ := facts
  refine ⟨accepted, hcall, htarget, hcallee, rfl, hparameter, hcode ▸ emits_called, code_argument,
    hblock, ready_machine, runs_counting.1, runs_counting.2, push_reached, runs_copying,
    measured.2.2.2.2⟩

end Recount

end MiniJ
