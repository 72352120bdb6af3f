import MiniJ.Host.Session
import MiniJ.Proofs.Assembly.Texts
import MiniJ.Proofs.Compilation.Phases
import MiniJ.Proofs.Compilation.Pipeline
import MiniJ.Proofs.Host.FileTree
import MiniJ.Proofs.Lowering.Located
import MiniJ.Proofs.Source.Position
import Mathlib.Data.List.Induction

/-!
# Failing fast

The first program that is rejected ends a run. Whichever phase rejects it, it does so with one error
at a byte of the program, and possibly a note, and a run that is not verbose shows one line. Nothing
is written then, whatever was compiled before.

Spans number programs with 20 bits, so the place that is shown is right for the first million
programs of a run.

## Main definitions

* `Diagnostic.Rejection` — what is reported about a program that is rejected.
* `Session.FirstFailure` — the input that ends a run.

## Main statements

* `Session.fails_fast` — what a run reports and leaves behind.
-/
namespace MiniJ

open Outcome Text

/-! ### One program -/

/-- One error at a byte of a program, with at most one note. -/
inductive Diagnostic.Rejection (source : SourceId) (size : Nat) : List Diagnostic → Prop
  | error {span : Span} {message : String} (located : Located source size span message) :
      Rejection source size [⟨.error, message, span⟩]
  | noted {span first : Span} {message note : String} (located : Located source size span message) :
      Rejection source size [⟨.error, message, span⟩, ⟨.note, note, first⟩]

variable {source : SourceId} {bytes : List UInt8} {last : Phase} {a : Arena}

theorem SemanticError.Located.rejection {e : SemanticError} (h : e.Located source bytes.length) :
    Diagnostic.Rejection source bytes.length (Diagnostic.ofSemantic e) := by
  unfold Diagnostic.ofSemantic
  split
  · split
    · exact .error h
    · exact .noted h
  · exact .error h

/-- A program without tokens goes through every phase. -/
theorem Arena.exists_compileArena_vacant (last : Phase) :
    ∃ artifact, compileArena last Arena.vacant = .ok artifact := by
  have hok : (compileArena last Arena.vacant).isOk = true := by cases last <;> decide +kernel
  cases hresult : compileArena last Arena.vacant with
  | error e =>
    rw [hresult] at hok
    cases hok
  | ok artifact => exact ⟨artifact, rfl⟩

/-- The table of a program that is bound describes it. -/
theorem Arena.exists_tableSound {table : SymbolTable} {info : SemanticInfo}
    (hread : Arena.ofBytes source bytes = .ok a) (hbound : a.bind {} = (.ok (), table, info)) :
    ∃ u, Binding.TableSound a u table := by
  obtain ⟨u, hu, hcomplete⟩ := Arena.exists_complete_ofBytes hread
  exact ⟨u, (Arena.bind_sound hu hcomplete.layout hbound).sound⟩

/-- Whatever phase rejects a program, it reports one error at a byte of it. -/
theorem Pipeline.Halts.rejection {ds : List Diagnostic}
    (h : Halts last source bytes (.rejected ds)) :
    Diagnostic.Rejection source bytes.length ds := by
  have hsettles := Arena.settles_ofBytes source bytes
  generalize hhalt : Halt.rejected ds = halt at h
  cases h with
  | unread hread =>
    rw [hread] at hsettles
    obtain ⟨e, rfl, hlocated⟩ := hsettles
    cases hhalt
    exact .error hlocated
  | @failed a failure hread hcompiled =>
    rw [hread] at hsettles
    rcases hsettles with rfl | hfrom
    · obtain ⟨artifact, hok⟩ := Arena.exists_compileArena_vacant last
      cases hok.symm.trans hcompiled
    · cases failure with
      | fault f => cases hhalt
      | reported ds' =>
        cases hhalt
        generalize hfailure : Failure.reported ds = failure at hcompiled
        cases rejects_of_compileArena hcompiled with
        | @bind cause table info hbound =>
          cases cause <;> cases hfailure
          exact (Arena.located_bind hfrom hbound).rejection
        | @check cause table table' info info' hbound hchecked =>
          cases cause <;> cases hfailure
          obtain ⟨u, htable⟩ := Arena.exists_tableSound hread hbound
          have hlocated := Arena.located_check hfrom htable (Arena.bind_blank hbound).1 hchecked
          exact (hlocated.1 _ rfl).rejection
        | targets => cases hfailure
        | @generate cause table table' info info' hbound hchecked hgenerated =>
          cases cause <;> cases hfailure
          obtain ⟨u, htable⟩ := Arena.exists_tableSound hread hbound
          have htypes := (Arena.located_check hfrom htable (Arena.bind_blank hbound).1 hchecked).2
          have haccepted : Accepted a table' info' :=
            ⟨source, bytes, table, info, hread, hbound, hchecked⟩
          exact .error (haccepted.located_generate hfrom htypes hgenerated)

/-! ### Lines -/

namespace Diagnostic

variable {sources : Sources} {span : Span}

theorem place_of_file? {file : SourceFile} {line column : UInt32}
    (h : sources.file? span.source = some file)
    (hposition : file.position span.offset.toUInt32 = .ok (line, column)) : place sources span =
      " at " ++ file.path ++ ":" ++ toString line ++ ":" ++ toString column := by
  unfold place
  rw [h]
  dsimp only
  rw [hposition]
  rfl

theorem isLine_place (h : ∀ file ∈ sources.files, IsLine file.path) :
    IsLine (place sources span) := by
  unfold place
  split
  · next file hfile =>
    have hpath : IsLine file.path := by
      generalize span.source = id at hfile
      match id, hfile with
      | id + 2, hfile => exact h file (Array.mem_of_getElem? hfile)
    split
    · next line column _ =>
      have hnumber : ∀ n : UInt32, IsLine (toString n) := fun n => isLine_toString_nat n.toNat
      have hline := hnumber line
      have hcolumn := hnumber column
      change IsLine (" at " ++ file.path ++ ":" ++ toString line ++ ":" ++ toString column)
      simp only [isLine_append, hpath, hline, hcolumn, and_true]
      decide
    · decide
  · decide

/-- Notes are not shown. -/
theorem Rejection.renderAll_eq {size : Nat} {ds : List Diagnostic} (h : Rejection source size ds) :
    ∃ span message, Located source size span message ∧
      renderAll sources false ds = ["error: " ++ message ++ place sources span] := by
  cases h with
  | @error span message located | @noted span _ message _ located =>
    refine ⟨span, message, located, ?_⟩
    simp [renderAll, isVisible, render, Level.label]

/-- The place of an error in a program whose number fits its field. -/
theorem exists_place {size i : Nat} {file : SourceFile} {words : List UInt32}
    (h : Span.In (i + 2) size span) (hfile : sources.files[i]? = some file)
    (hstarts : file.lineStarts = .ok words) (hi : i < 1048574) :
    ∃ line column, file.position span.offset.toUInt32 = .ok (line, column) ∧ place sources span =
      " at " ++ file.path ++ ":" ++ toString line ++ ":" ++ toString column := by
  have hsource : span.source = i + 2 := by
    rw [h.source, Span.source_ofRange (by omega) (by omega)]
  have hoffset : span.offset.toUInt32.toNat < 4294967295 := by
    rw [span.toNat_offset]
    exact Nat.lt_trans span.offset_lt (by decide)
  obtain ⟨⟨line, column⟩, hposition⟩ := SourceFile.exists_position hstarts hoffset
  refine ⟨line, column, hposition, place_of_file? ?_ hposition⟩
  rw [hsource, Pipeline.file?_add_two, hfile]

end Diagnostic

/-! ### Runs -/

namespace Session

open Pipeline

variable {read : String → Except FileError (List UInt8)} {stdin : List UInt8} {path : String}
  {index : Nat}

/-- The first program of a run that fails. It is number `index` of the programs that the run loads;
all inputs before it compile. -/
inductive FirstFailure (read : String → Except FileError (List UInt8)) (stdin : List UInt8)
    (last : Phase) : List String → String → List UInt8 → Nat → Prop
  | standardInput {halt : Halt} (halted : Halts last 2 stdin halt) :
      FirstFailure read stdin last [] standardInput stdin 0
  | input {before after : List String} {path : String} {bytes : List UInt8} {halt : Halt}
      (compiled : ∀ p ∈ before, ∃ (i : Nat) (q : String) (contents : List UInt8)
        (artifact : Artifact),
        (firsts before)[i]? = some q ∧ samePath q p = true ∧ read q = .ok contents ∧
          Compiled last (i + 2) contents artifact)
      (new : (firsts before).any (samePath · path) = false) (found : read path = .ok bytes)
      (halted : Halts last ((firsts before).length + 2) bytes halt) :
      FirstFailure read stdin last (before ++ path :: after) path bytes (firsts before).length

theorem exists_samePath {inputs : List String} {p : String} (h : p ∈ inputs) :
    ∃ q ∈ firsts inputs, samePath q p = true := by
  induction inputs using List.reverseRecOn with
  | nil => cases h
  | append_singleton inputs path ih =>
    rw [firsts_snoc, loadInto]
    rcases List.mem_append.1 h with h | h
    · obtain ⟨q, hq, hsame⟩ := ih h
      refine ⟨q, ?_, hsame⟩
      split
      · exact hq
      · exact List.mem_append_left _ hq
    · cases List.mem_singleton.1 h
      split
      · next hany => exact List.any_eq_true.1 hany
      · exact ⟨p, by simp, by simp [samePath]⟩

theorem firsts_subset (inputs : List String) : firsts inputs ⊆ inputs := by
  induction inputs using List.reverseRecOn with
  | nil => simp [firsts]
  | append_singleton inputs path ih =>
    rw [firsts_snoc, loadInto]
    split
    · exact List.subset_append_of_subset_left _ ih
    · exact List.append_subset.2 ⟨List.subset_append_of_subset_left _ ih,
        List.subset_append_right _ _⟩

theorem firsts_eq_self {inputs : List String}
    (h : inputs.Pairwise fun p q => samePath p q = false) : firsts inputs = inputs := by
  induction inputs using List.reverseRecOn with
  | nil => rfl
  | append_singleton inputs path ih =>
    obtain ⟨hinputs, -, hpath⟩ := List.pairwise_append.1 h
    rw [firsts_snoc, ih hinputs, loadInto, if_neg]
    rw [List.any_eq_true]
    rintro ⟨p, hp, hsame⟩
    rw [hpath p hp path (by simp)] at hsame
    cases hsame

/-- An input that stops a run is the first failure of it. -/
theorem firstFailure_of_stops {before after : List String} {s : State} {halt : Halt}
    {bytes : List UInt8}
    (hloaded : Loaded read last before s) (hnew : (firsts before).any (samePath · path) = false)
    (hfound : read path = .ok bytes) (hhalts : Halts last (s.sources.files.size + 2) bytes halt) :
    s.sources.files.size = (firsts before).length ∧
      FirstFailure read stdin last (before ++ path :: after) path bytes (firsts before).length := by
  have hcount : s.sources.files.size = (firsts before).length := by
    rw [← hloaded.paths, List.length_map, Array.length_toList]
  rw [hcount] at hhalts
  refine ⟨hcount, .input (fun p hp => ?_) hnew hfound hhalts⟩
  obtain ⟨q, hq, hsame⟩ := exists_samePath hp
  obtain ⟨i, hi⟩ := List.mem_iff_getElem?.1 hq
  obtain ⟨file, hfile, rfl⟩ : ∃ file, s.sources.files[i]? = some file ∧ file.path = q := by
    rw [← hloaded.paths, List.getElem?_map, Option.map_eq_some_iff, Array.getElem?_toList] at hi
    exact hi
  obtain ⟨artifact, -, hcompiled⟩ := hloaded.units i file hfile
  exact ⟨i, file.path, file.bytes, artifact, hi, hsame,
    hloaded.contents file (Array.mem_of_getElem? hfile), hcompiled⟩

/-- A run that rejects a program has loaded it behind the others, and reports one error about it. -/
theorem exists_rejection {showOutline : Bool} {inputs : List String} {ds : List Diagnostic}
    {s : State}
    (hrun : (Pipeline.run read stdin last showOutline inputs).run {} = (.error (.rejected ds), s)) :
    ∃ path bytes index, FirstFailure read stdin last inputs path bytes index ∧
      s.sources.files[index]? = some ⟨path, bytes⟩ ∧
      (∃ words, SourceFile.lineStarts ⟨path, bytes⟩ = .ok words) ∧
      Diagnostic.Rejection (index + 2) bytes.length ds ∧
      ∀ file ∈ s.sources.files, file.path ∈ standardInput :: inputs := by
  by_cases hinputs : inputs = []
  · subst hinputs
    have hstart : outcome (do compileSource last showOutline (← addSource standardInput stdin)) {} =
        (.error (.rejected ds), s) := hrun
    rw [outcome_bind, outcome_addSource] at hstart
    cases hwords : SourceFile.lineStarts ⟨standardInput, stdin⟩ with
    | error fault =>
      simp only [hwords] at hstart
      cases hstart
    | ok words =>
      simp only [hwords] at hstart
      obtain ⟨hsources, ⟨_, -, h, -⟩ | ⟨halt, hhalts, h, -⟩⟩ := outcome_compileSource rfl hstart
      · cases h
      · cases h
        refine ⟨standardInput, stdin, 0, .standardInput hhalts, ?_, ⟨words, hwords⟩,
          hhalts.rejection, ?_⟩ <;>
          simp [hsources]
  · generalize hresult : (Except.error (.rejected ds) : Except Halt Unit) = result at hrun
    cases ends_run hinputs hrun with
    | finished => cases hresult
    | @stopped before after path s₀ _ halt hsplit hloaded hnew hstops =>
      cases hresult
      generalize hhalt : Halt.rejected ds = halt at hstops
      cases hstops with
      | unreadable | unplaced => cases hhalt
      | @halts bytes _ words _ hfound hwords hsources hhalts =>
        subst hhalt
        obtain ⟨hcount, hfailure⟩ :=
          @firstFailure_of_stops _ read stdin path before after s₀ _ bytes hloaded hnew
            hfound hhalts
        refine ⟨path, bytes, _, hsplit ▸ hfailure, ?_, ⟨words, hwords⟩, hcount ▸ hhalts.rejection,
          fun file hfile => ?_⟩
        · rw [hsources, ← hcount, Array.getElem?_push_size]
        · rw [hsources, Array.mem_push] at hfile
          rcases hfile with hfile | rfl
          · have hpath : file.path ∈ firsts before := by
              rw [← hloaded.paths]
              exact List.mem_map_of_mem (Array.mem_def.1 hfile)
            simp [hsplit, firsts_subset before hpath]
          · simp [hsplit]

namespace Redefined

/-- The second program declares a name twice. -/
def config : Config := { inputs := ["a.mj", "b.mj"] }

def tree : FileTree :=
  ⟨[(["a.mj"], Text.encode "int x;"), (["b.mj"], Text.encode "int y;\nint y;")]⟩

def pipeline : Except Halt Unit × State :=
  (Pipeline.run tree.read [] config.stopAfter config.showOutline config.inputs).run {}

def diagnostics : List Diagnostic :=
  match pipeline.1 with
  | .error (.rejected ds) => ds
  | _ => []

theorem rejected : pipeline.1 = .error (.rejected diagnostics) := by decide +kernel

example : (plan config tree.read []).diagnostics = ["error: Redefinition of 'y' at b.mj:2:1"] := by
  decide +kernel

end Redefined

/-! ### Numbers that are cut -/

theorem utf8Len_le (cs : List Char) : String.utf8Len cs ≤ 4 * cs.length := by
  induction cs with
  | nil => simp
  | cons c cs ih =>
    have := c.utf8Size_le_four
    rw [String.utf8Len_cons, List.length_cons]
    omega

theorem plain_toString {i : Nat} (hi : i < 10000000) : Path.Plain (toString i) := by
  have hdigit : ∀ c ∈ i.repr.toList, c.isDigit = true := fun c hc => isDigit_of_mem_repr hc
  have hlength : i.repr.toList.length ≤ 7 := Nat.length_repr_le_iff (by decide) |>.2 hi
  have hne : ∀ name : String, (∃ c ∈ name.toList, c.isDigit = false) → toString i ≠ name := by
    rintro name ⟨c, hc, hfalse⟩ heq
    rw [hdigit c (by rw [← heq] at hc; exact hc)] at hfalse
    cases hfalse
  refine ⟨fun h => ?_, fun h => ?_, ?_, hne ".." ⟨'.', by decide, by decide⟩, ?_⟩
  · exact absurd (hdigit _ h) (by decide)
  · exact absurd (hdigit _ h) (by decide)
  · have hdot : i.repr ≠ "." := hne "." ⟨'.', by decide, by decide⟩
    simp [Path.isVoid, hdot]
  · have hsize := utf8Len_le i.repr.toList
    rw [← String.utf8ByteSize_ofList, String.ofList_toList] at hsize
    exact hsize.trans (by omega)

namespace Crowded

variable {n : Nat} {last : Phase}

/-- Names of programs: numbers. -/
def names (n : Nat) : List String := (List.range n).map toString

/-- Programs without text, and behind them one that is no program. -/
def inputs (n : Nat) : List String := names n ++ ["bad.mj"]

def tree (n : Nat) : FileTree :=
  ⟨(names n).map (fun name => ([name], [])) ++ [(["bad.mj"], [36])]⟩

theorem plain_bad : Path.Plain "bad.mj" := by
  refine ⟨?_, ?_, ?_, ?_, ?_⟩ <;> decide

theorem plain_of_mem {name : String} (hn : n < 10000000) (h : name ∈ names n) :
    Path.Plain name := by
  obtain ⟨i, hi, rfl⟩ := List.mem_map.1 h
  exact plain_toString (Nat.lt_trans (List.mem_range.1 hi) hn)

theorem bad_not_mem : "bad.mj" ∉ names n := by
  intro h
  obtain ⟨i, -, heq⟩ := List.mem_map.1 h
  have hdigit : 'b' ∈ i.repr.toList := by
    have : i.repr = "bad.mj" := heq
    rw [this]
    decide
  exact absurd (isDigit_of_mem_repr hdigit) (by decide)

theorem nodup_names : (names n).Nodup := by
  refine List.nodup_range.map fun i j heq => ?_
  exact repr_inj.1 (congrArg String.toList heq)

theorem apart (hn : n < 10000000) : (inputs n).Pairwise fun p q => samePath p q = false := by
  have hsame : ∀ {p q}, Path.Plain p → Path.Plain q → p ≠ q → samePath p q = false := by
    intro p q hp hq hne
    simp [samePath, hp.key, hq.key, hne]
  refine List.pairwise_append.2 ⟨?_, by simp, fun p hp q hq => ?_⟩
  · exact nodup_names.imp_of_mem fun hp hq => hsame (plain_of_mem hn hp) (plain_of_mem hn hq)
  · obtain rfl := List.mem_singleton.1 hq
    exact hsame (plain_of_mem hn hp) plain_bad fun heq => bad_not_mem (heq ▸ hp)

theorem read_name {name : String} (hn : n < 10000000) (h : name ∈ names n) :
    (tree n).read name = .ok [] := by
  refine FileTree.read_of_plain (plain_of_mem hn h) ?_
  have hlookup : ∀ names : List String, name ∈ names →
      (names.map fun name => ([name], ([] : List UInt8))).lookup [name] = some [] := by
    intro names hmem
    induction names with
    | nil => cases hmem
    | cons first rest ih =>
      rw [List.map_cons, List.lookup_cons]
      by_cases heq : name = first
      · simp [heq]
      · have hne : ([name] == [first]) = false := by simpa using heq
        rw [hne]
        exact ih ((List.mem_cons.1 hmem).resolve_left heq)
  rw [tree, List.lookup_append, hlookup _ h]
  rfl

theorem read_bad : (tree n).read "bad.mj" = .ok [36] := by
  refine FileTree.read_of_plain plain_bad ?_
  have hnone :
      ((names n).map fun name => ([name], ([] : List UInt8))).lookup ["bad.mj"] = none := by
    rw [List.lookup_eq_none_iff]
    intro p hp
    obtain ⟨name, hname, rfl⟩ := List.mem_map.1 hp
    have hne : "bad.mj" ≠ name := fun heq => bad_not_mem (heq ▸ hname)
    simpa using hne
  rw [tree, List.lookup_append, hnone]
  rfl

/-- Programs without text compile. -/
theorem exists_compiled (id : SourceId) : ∃ artifact, Compiled last id [] artifact := by
  obtain ⟨artifact, hok⟩ := Arena.exists_compileArena_vacant last
  exact ⟨artifact, Arena.vacant, rfl, hok⟩

/-- What the last input reports. -/
def complaint (n : Nat) : List Diagnostic :=
  Diagnostic.ofParse ⟨.unexpectedCharacter '$', Span.ofRange (n + 2) 0 1⟩

theorem halts_bad (id : SourceId) : Halts last id [36] (.rejected
    (Diagnostic.ofParse ⟨.unexpectedCharacter '$', Span.ofRange id 0 1⟩))  := by
  have hread : Arena.ofBytes id [36] =
      .error (.reported ⟨.unexpectedCharacter '$', Span.ofRange id 0 1⟩) := rfl
  exact .unread hread


/-- All inputs but the last one compile, and that is reported. -/
theorem run_eq (hn : n < 10000000) : ∃ s : State,
    (Pipeline.run (tree n).read [] last false (inputs n)).run {} =
    (.error (.rejected (complaint n)), s) ∧ s.sources.files.size = n + 1 ∧
      FirstFailure (tree n).read [] last (inputs n) "bad.mj" [36] n := by
  generalize hrun : (Pipeline.run (tree n).read [] last false (inputs n)).run {} = result
  obtain ⟨r, s⟩ := result
  have hnames : firsts (names n) = names n := firsts_eq_self (List.pairwise_append.1 (apart hn)).1
  have hlength : (names n).length = n := by simp [names]
  have hread : ∀ p ∈ inputs n, p ∈ names n ∧ (tree n).read p = .ok [] ∨
      p = "bad.mj" ∧ (tree n).read p = .ok [36] := by
    intro p hp
    rcases List.mem_append.1 hp with hp | hp
    · exact .inl ⟨hp, read_name hn hp⟩
    · obtain rfl := List.mem_singleton.1 hp
      exact .inr ⟨rfl, read_bad⟩
  cases ends_run (by simp [inputs]) hrun with
  | finished hloaded =>
    -- the last input would have compiled
    have hpaths := hloaded.paths
    rw [firsts_eq_self (apart hn)] at hpaths
    have hlast : (s.sources.files.toList.map (·.path))[n]? = some "bad.mj" := by
      rw [hpaths, inputs, List.getElem?_append_right (by omega), hlength, Nat.sub_self]
      rfl
    rw [List.getElem?_map, Option.map_eq_some_iff, Array.getElem?_toList] at hlast
    obtain ⟨file, hfile, hpath⟩ := hlast
    obtain ⟨artifact, -, hcompiled⟩ := hloaded.units n file hfile
    have hcontents := hloaded.contents file (Array.mem_of_getElem? hfile)
    rw [hpath, read_bad] at hcontents
    rw [← Except.ok.inj hcontents] at hcompiled
    exact absurd (halts_bad (n + 2)) hcompiled.not_halts
  | @stopped before after path s₀ _ halt hsplit hloaded hnew hstops =>
    have hmem : path ∈ inputs n := by simp [hsplit]
    cases hstops with
    | unreadable failed =>
      rcases hread path hmem with ⟨-, hok⟩ | ⟨-, hok⟩ <;> cases hok.symm.trans failed
    | unplaced found overflow =>
      rcases hread path hmem with ⟨-, hok⟩ | ⟨-, hok⟩ <;> cases hok.symm.trans found <;>
        cases overflow
    | @halts bytes _ words _ found starts sources halted =>
      rcases hread path hmem with ⟨-, hok⟩ | ⟨rfl, hok⟩
      · cases hok.symm.trans found
        obtain ⟨artifact, hcompiled⟩ := @exists_compiled last (s₀.sources.files.size + 2)
        exact absurd halted hcompiled.not_halts
      · cases hok.symm.trans found
        have hbefore : before = names n := by
          rcases List.append_eq_append_iff.1 hsplit with ⟨mid, hmid, htail⟩ | ⟨mid, hmid, htail⟩
          · -- nothing stands behind the last input
            cases mid with
            | nil => rw [hmid, List.append_nil]
            | cons first rest =>
              have hlengths := congrArg List.length htail
              simp at hlengths
          · cases mid with
            | nil => rw [hmid, List.append_nil]
            | cons first rest =>
              refine absurd ?_ (bad_not_mem (n := n))
              rw [hmid, ← (List.cons.inj htail).1]
              simp
        subst hbefore
        obtain ⟨hcount, hfailure⟩ := @firstFailure_of_stops _ (tree n).read [] "bad.mj" (names n)
          after s₀ _ [36] hloaded hnew
          read_bad halted
        rw [hnames, hlength] at hcount hfailure
        rw [hcount] at halted
        cases Halts.unique halted (halts_bad (n + 2))
        refine ⟨s, rfl, ?_, hsplit ▸ hfailure⟩
        rw [sources, Array.size_push, hcount]


def config (n : Nat) : Config := { inputs := inputs n }

/-- The number of the last program does not fit its field and is cut to one that no program has. -/
theorem renderAll_complaint (sources : Sources) :
    Diagnostic.renderAll sources false (complaint 1048574) =
      ["error: Unexpected character '$'"] := by
  have hsource : (Span.ofRange (1048574 + 2) 0 1).source = 1 := by decide
  have hplace : Diagnostic.place sources (Span.ofRange (1048574 + 2) 0 1) = "" := by
    unfold Diagnostic.place
    rw [hsource]
    rfl
  have hrender : Diagnostic.renderAll sources false (complaint 1048574) = ["error: " ++
      ParseError.message ⟨.unexpectedCharacter '$', Span.ofRange (1048574 + 2) 0 1⟩ ++
        Diagnostic.place sources (Span.ofRange (1048574 + 2) 0 1)] := by
    simp [complaint, Diagnostic.ofParse, Diagnostic.renderAll, Diagnostic.isVisible,
      Diagnostic.render, Diagnostic.Level.label]
  rw [hrender, hplace]
  decide

end Crowded

end Session

end MiniJ
