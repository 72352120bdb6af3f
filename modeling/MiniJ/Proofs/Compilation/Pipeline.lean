import MiniJ.Compilation

/-!
# Runs over several inputs

Inputs are compiled in order. An input that names a program which was loaded before is compiled once
more and changes nothing, so after any number of inputs the loaded programs, and the finished ones
with them, stand in the order of their first occurrence. The first input that fails ends the run.

## Main definitions

* `Pipeline.firsts` — the inputs without those that were loaded before.
* `Pipeline.Loaded` — what a run has done after some inputs.
* `Pipeline.Stops` — how an input ends a run.

## Main statements

* `Pipeline.ends_run` — a run compiles all inputs or stops at one of them.
-/
namespace MiniJ

namespace Pipeline

variable {α β : Type} {read : String → Except FileError (List UInt8)} {last : Phase}
  {showOutline : Bool} {s s' : State} {path : String} {id : SourceId} {bytes : List UInt8}

/-- Two paths that name the same program. -/
def samePath (p q : String) : Bool := Path.key p == Path.key q

/-- Adds an input unless it was loaded before. -/
def loadInto (loaded : List String) (path : String) : List String :=
  if loaded.any (samePath · path) then loaded else loaded ++ [path]

/-- The inputs that are loaded, in order: those that no earlier one names. -/
def firsts (inputs : List String) : List String := inputs.foldl loadInto []

theorem firsts_snoc (inputs : List String) (path : String) :
    firsts (inputs ++ [path]) = loadInto (firsts inputs) path := by
  rw [firsts, List.foldl_append]
  rfl

/-! ### Outcomes -/

/-- What a part of a run gives, and what it has done then. -/
def outcome (x : PipelineM α) (s : State) : Except Halt α × State := x.run s

theorem outcome_bind {x : PipelineM α} {f : α → PipelineM β} : outcome (x >>= f) s =
    match outcome x s with
    | (.ok v, t) => outcome (f v) t
    | (.error e, t) => (.error e, t) := by
  have h : outcome (x >>= f) s =
      outcome (ExceptT.mk (ExceptT.bindCont f (outcome x s).1)) (outcome x s).2 := rfl
  rw [h]
  rcases outcome x s with ⟨_ | _, t⟩ <;> rfl

theorem outcome_addSource : outcome (addSource path bytes) s =
    match SourceFile.lineStarts ⟨path, bytes⟩ with
    | .ok _ => (.ok (s.sources.files.size + 2),
        { s with sources := ⟨s.sources.files.push ⟨path, bytes⟩⟩ })
    | .error f => (.error (.fault f), s) := by
  have hget : outcome (get : PipelineM State) s = (.ok s, s) := rfl
  simp only [addSource, outcome_bind, hget, Sources.add]
  cases SourceFile.lineStarts ⟨path, bytes⟩ <;> rfl

theorem outcome_load : outcome (load read path) s =
    match loaded? s.sources path with
    | some id => (.ok id, s)
    | none =>
      match read path with
      | .ok bytes => outcome (addSource path bytes) s
      | .error e => (.error (.unreadable e), s) := by
  have h : outcome (load read path) s = outcome (match loaded? s.sources path with
    | some id => return id
    | none =>
      match read path with
      | .ok bytes => addSource path bytes
      | .error e => throw (.unreadable e)) s := rfl
  rw [h]
  cases loaded? s.sources path with
  | some id => rfl
  | none => cases read path <;> rfl

/-- A program compiles up to a phase. -/
def Compiled (last : Phase) (id : SourceId) (bytes : List UInt8) (artifact : Artifact) : Prop :=
  ∃ a, Arena.ofBytes id bytes = .ok a ∧ compileArena last a = .ok artifact

/-- A program does not compile. -/
inductive Halts (last : Phase) (id : SourceId) (bytes : List UInt8) : Halt → Prop
  | unread {failure : Failure ParseError} (read : Arena.ofBytes id bytes = .error failure) :
      Halts last id bytes (stop (failure.map Diagnostic.ofParse))
  | failed {a : Arena} {failure : Failure (List Diagnostic)} (read : Arena.ofBytes id bytes = .ok a)
      (compiled : compileArena last a = .error failure) : Halts last id bytes (stop failure)

theorem Compiled.unique {artifact artifact' : Artifact} (h : Compiled last id bytes artifact)
    (h' : Compiled last id bytes artifact') : artifact = artifact' := by
  obtain ⟨a, hread, hcompiled⟩ := h
  obtain ⟨a', hread', hcompiled'⟩ := h'
  cases hread.symm.trans hread'
  exact Except.ok.inj (hcompiled.symm.trans hcompiled')

theorem Halts.unique {id : SourceId} {bytes : List UInt8} {halt halt' : Halt}
    (h : Halts last id bytes halt) (h' : Halts last id bytes halt') : halt = halt' := by
  cases h with
  | unread hread => cases h' with
    | unread hread' =>
      cases hread.symm.trans hread'
      rfl
    | failed hread' => cases hread.symm.trans hread'
  | failed hread hcompiled => cases h' with
    | unread hread' => cases hread.symm.trans hread'
    | failed hread' hcompiled' =>
      cases hread.symm.trans hread'
      cases hcompiled.symm.trans hcompiled'
      rfl

theorem Compiled.not_halts {artifact : Artifact} {halt : Halt}
    (h : Compiled last id bytes artifact) :
    ¬Halts last id bytes halt := by
  obtain ⟨a, hread, hcompiled⟩ := h
  intro hhalts
  cases hhalts with
  | unread hread' => cases hread.symm.trans hread'
  | failed hread' hcompiled' =>
    cases hread.symm.trans hread'
    cases hcompiled.symm.trans hcompiled'

/-- Compiling a program that is loaded adds a unit, or stops the run and adds nothing. -/
theorem outcome_compileSource {r : Except Halt Unit}
    (hbytes : ((s.sources.file? id).map (·.bytes)).getD [] = bytes)
    (h : outcome (compileSource last showOutline id) s = (r, s')) : s'.sources = s.sources ∧
      ((∃ artifact, Compiled last id bytes artifact ∧ r = .ok () ∧
          s'.units = insertUnit s.units id artifact) ∨
        (∃ halt, Halts last id bytes halt ∧ r = .error halt ∧ s'.units = s.units)) := by
  have hget : outcome get s = (.ok s, s) := rfl
  simp only [compileSource, outcome_bind, hget, hbytes] at h
  cases hread : Arena.ofBytes id bytes with
  | error e =>
    simp only [hread] at h
    cases h
    exact ⟨rfl, .inr ⟨_, .unread hread, rfl, rfl⟩⟩
  | ok a =>
    simp only [hread] at h
    cases hcompiled : compileArena last a with
    | error failure =>
      simp only [hcompiled] at h
      cases showOutline <;> cases h <;>
        exact ⟨rfl, .inr ⟨_, .failed hread hcompiled, rfl, rfl⟩⟩
    | ok artifact =>
      simp only [hcompiled] at h
      cases showOutline <;> cases h <;>
        exact ⟨rfl, .inl ⟨artifact, ⟨a, hread, hcompiled⟩, rfl, rfl⟩⟩

/-! ### Inputs one after the other -/

/-- What a run has done once it has compiled some inputs. -/
structure Loaded (read : String → Except FileError (List UInt8)) (last : Phase)
    (inputs : List String) (s : State) : Prop where
  paths : s.sources.files.toList.map (·.path) = firsts inputs
  /-- Programs are what their path leads to. -/
  contents : ∀ file ∈ s.sources.files, read file.path = .ok file.bytes
  /-- The lines of programs have starts. -/
  starts : ∀ file ∈ s.sources.files, ∃ words, file.lineStarts = .ok words
  /-- Every loaded program is finished. -/
  count : s.units.length = s.sources.files.size
  units : ∀ i file, s.sources.files[i]? = some file →
    ∃ artifact, s.units[i]? = some (i + 2, artifact) ∧ Compiled last (i + 2) file.bytes artifact

/-- An input that was not loaded before ends a run, which had done `s` until then. -/
inductive Stops (read : String → Except FileError (List UInt8)) (last : Phase) (s : State)
    (path : String) : Halt → State → Prop
  | unreadable {e : FileError} (failed : read path = .error e) :
    Stops read last s path (.unreadable e) s
  | unplaced {bytes : List UInt8} {fault : Fault} (found : read path = .ok bytes)
      (overflow : SourceFile.lineStarts ⟨path, bytes⟩ = .error fault) :
      Stops read last s path (.fault fault) s
  | halts {bytes : List UInt8} {halt : Halt} {words : List UInt32} {s' : State}
      (found : read path = .ok bytes) (starts : SourceFile.lineStarts ⟨path, bytes⟩ = .ok words)
      (sources : s'.sources.files = s.sources.files.push ⟨path, bytes⟩)
      (halted : Halts last (s.sources.files.size + 2) bytes halt) : Stops read last s path halt s'

theorem loaded_start : Loaded read last [] {} := by
  refine ⟨rfl, ?_, ?_, rfl, ?_⟩ <;> simp

/-- The number of a program that was loaded before. -/
theorem loaded?_eq_some {sources : Sources} (h : loaded? sources path = some id) :
    ∃ i file, id = i + 2 ∧ sources.files[i]? = some file ∧ samePath file.path path = true := by
  obtain ⟨i, hi, rfl⟩ := Option.map_eq_some_iff.1 h
  obtain ⟨hlt, hfound, -⟩ := Array.findIdx?_eq_some_iff_getElem.1 hi
  exact ⟨i, sources.files[i], rfl, Array.getElem?_eq_getElem hlt, hfound⟩

theorem loaded?_eq_none {sources : Sources} (h : loaded? sources path = none) :
    ∀ file ∈ sources.files, samePath file.path path = false := by
  rw [loaded?, Option.map_eq_none_iff, Array.findIdx?_eq_none_iff] at h
  intro file hfile
  simpa [samePath] using h file hfile

theorem file?_add_two (sources : Sources) (i : Nat) : sources.file? (i + 2) = sources.files[i]? :=
  rfl

/-- Finishing a program again changes nothing. -/
theorem insertUnit_again {units : List (SourceId × Artifact)} {artifact : Artifact} {i : Nat}
    (hids : ∀ j unit, units[j]? = some unit → unit.1 = j + 2)
    (hunit : units[i]? = some (i + 2, artifact)) :
    insertUnit units (i + 2) artifact = units := by
  have hany : units.any (·.1 == i + 2) = true :=
    List.any_eq_true.2 ⟨_, List.mem_of_getElem? hunit, by simp⟩
  rw [insertUnit, if_pos hany]
  refine List.ext_getElem? fun j => ?_
  rw [List.getElem?_map]
  cases hj : units[j]? with
  | none => rfl
  | some unit =>
    rw [Option.map_some]
    split
    · next heq =>
      have hji : j = i := by
        have := hids j unit hj
        rw [eq_of_beq heq] at this
        omega
      rw [hji, hunit] at hj
      rw [hj]
    · rfl

theorem insertUnit_new {units : List (SourceId × Artifact)} {artifact : Artifact}
    (hids : ∀ j unit, units[j]? = some unit → unit.1 = j + 2) :
    insertUnit units (units.length + 2) artifact = units ++ [(units.length + 2, artifact)] := by
  have hany : ¬units.any (·.1 == units.length + 2) = true := by
    rw [List.any_eq_true]
    rintro ⟨unit, hmem, heq⟩
    obtain ⟨j, hj⟩ := List.mem_iff_getElem?.1 hmem
    have hlt := (List.getElem?_eq_some_iff.1 hj).1
    have := hids j unit hj
    rw [eq_of_beq heq] at this
    omega
  rw [insertUnit, if_neg hany]

variable {inputs : List String}

theorem Loaded.ids (h : Loaded read last inputs s) :
    ∀ j unit, s.units[j]? = some unit → unit.1 = j + 2 := by
  intro j unit hj
  have hlt : j < s.sources.files.size := h.count ▸ (List.getElem?_eq_some_iff.1 hj).1
  obtain ⟨artifact, hunit, -⟩ := h.units j _ (Array.getElem?_eq_getElem hlt)
  rw [hj] at hunit
  rw [Option.some_inj.1 hunit]

/-- Whether an input was loaded before can be told from the paths. -/
theorem Loaded.any_firsts (h : Loaded read last inputs s) :
    (firsts inputs).any (samePath · path) = s.sources.files.any (samePath ·.path path) := by
  rw [← h.paths, List.any_map, ← Array.any_toList]
  rfl

/-- A new program and what it is compiled to. -/
theorem Loaded.push {artifact : Artifact} {words : List UInt32} (h : Loaded read last inputs s)
    (hnew : (firsts inputs).any (samePath · path) = false) (hread : read path = .ok bytes)
    (hstarts : SourceFile.lineStarts ⟨path, bytes⟩ = .ok words)
    (hcompiled : Compiled last (s.sources.files.size + 2) bytes artifact)
    (hsources : s'.sources.files = s.sources.files.push ⟨path, bytes⟩)
    (hunits : s'.units = s.units ++ [(s.sources.files.size + 2, artifact)]) :
    Loaded read last (inputs ++ [path]) s' := by
  refine ⟨?_, ?_, ?_, ?_, ?_⟩
  · rw [hsources, Array.toList_push, List.map_append, h.paths, firsts_snoc, loadInto,
      if_neg (by simp [hnew])]
    rfl
  · intro file hfile
    rw [hsources, Array.mem_push] at hfile
    rcases hfile with hfile | rfl
    · exact h.contents file hfile
    · exact hread
  · intro file hfile
    rw [hsources, Array.mem_push] at hfile
    rcases hfile with hfile | rfl
    · exact h.starts file hfile
    · exact ⟨words, hstarts⟩
  · simp [hsources, hunits, h.count]
  · intro i file hfile
    rw [hsources, Array.getElem?_push] at hfile
    split at hfile
    · next hi =>
      cases hfile
      refine ⟨artifact, ?_, hi ▸ hcompiled⟩
      rw [hunits, hi, ← h.count, List.getElem?_concat_length]
    · obtain ⟨artifact', hunit, hcompiled'⟩ := h.units i file hfile
      refine ⟨artifact', ?_, hcompiled'⟩
      rw [hunits, List.getElem?_append_left (List.getElem?_eq_some_iff.1 hunit).1]
      exact hunit

/-- One input: the run goes on, or stops at an input that is new. -/
theorem Loaded.step {r : Except Halt Unit} (h : Loaded read last inputs s)
    (hstep : outcome (do compileSource last showOutline (← load read path)) s = (r, s')) :
    r = .ok () ∧ Loaded read last (inputs ++ [path]) s' ∨
      ∃ halt, r = .error halt ∧ (firsts inputs).any (samePath · path) = false ∧
        Stops read last s path halt s' := by
  rw [outcome_bind, outcome_load] at hstep
  cases hloaded : loaded? s.sources path with
  | some id =>
    simp only [hloaded] at hstep
    obtain ⟨i, file, rfl, hfile, hsame⟩ := loaded?_eq_some hloaded
    obtain ⟨artifact, hunit, hcompiled⟩ := h.units i file hfile
    have hbytes : ((s.sources.file? (i + 2)).map (·.bytes)).getD [] = file.bytes := by
      rw [file?_add_two, hfile]
      rfl
    obtain ⟨hsources, ⟨artifact', hcompiled', rfl, hunits⟩ | ⟨halt, hhalts, -⟩⟩ :=
      outcome_compileSource hbytes hstep
    · cases hcompiled.unique hcompiled'
      rw [insertUnit_again h.ids hunit] at hunits
      have hold : firsts (inputs ++ [path]) = firsts inputs := by
        rw [firsts_snoc, loadInto, if_pos]
        rw [h.any_firsts, Array.any_eq_true']
        exact ⟨file, Array.mem_of_getElem? hfile, hsame⟩
      refine .inl ⟨rfl, ?_, ?_, ?_, ?_, ?_⟩
      · rw [hsources, hold]
        exact h.paths
      · rw [hsources]
        exact h.contents
      · rw [hsources]
        exact h.starts
      · rw [hsources, hunits]
        exact h.count
      · rw [hsources, hunits]
        exact h.units
    · exact absurd hhalts hcompiled.not_halts
  | none =>
    simp only [hloaded] at hstep
    have hnew : (firsts inputs).any (samePath · path) = false := by
      rw [h.any_firsts, Array.any_eq_false']
      exact fun file hfile => by simp [loaded?_eq_none hloaded file hfile]
    cases hread : read path with
    | error e =>
      simp only [hread] at hstep
      cases hstep
      exact .inr ⟨_, rfl, hnew, .unreadable hread⟩
    | ok bytes =>
      simp only [hread, outcome_addSource] at hstep
      cases hstarts : SourceFile.lineStarts ⟨path, bytes⟩ with
      | error fault =>
        simp only [hstarts] at hstep
        cases hstep
        exact .inr ⟨_, rfl, hnew, .unplaced hread hstarts⟩
      | ok words =>
        simp only [hstarts] at hstep
        have hbytes : (((⟨s.sources.files.push ⟨path, bytes⟩⟩ : Sources).file?
            (s.sources.files.size + 2)).map (·.bytes)).getD [] = bytes := by
          rw [file?_add_two, Array.getElem?_push_size]
          rfl
        obtain ⟨hsources, ⟨artifact, hcompiled, rfl, hunits⟩ | ⟨halt, hhalts, rfl, -⟩⟩ :=
          outcome_compileSource hbytes hstep
        · rw [← h.count, insertUnit_new h.ids] at hunits
          exact .inl ⟨rfl, h.push hnew hread hstarts hcompiled (by rw [hsources])
            (by rw [hunits, h.count])⟩
        · exact .inr ⟨halt, rfl, hnew, .halts hread hstarts (by rw [hsources]) hhalts⟩

/-- How a run over some inputs ends: all of them were compiled, or one that is new stopped the run
when those before it were compiled. -/
inductive Ends (read : String → Except FileError (List UInt8)) (last : Phase)
    (inputs : List String) : Except Halt Unit → State → Prop
  | finished {s : State} (loaded : Loaded read last inputs s) : Ends read last inputs (.ok ()) s
  | stopped {before after : List String} {path : String} {s s' : State} {halt : Halt}
      (split : inputs = before ++ path :: after) (loaded : Loaded read last before s)
      (new : (firsts before).any (samePath · path) = false)
      (stops : Stops read last s path halt s') :
      Ends read last inputs (.error halt) s'

theorem Loaded.run {more : List String} {r : Except Halt Unit} (h : Loaded read last inputs s)
    (hrun : outcome (more.forM fun path => do compileSource last showOutline (← load read path)) s =
      (r, s')) : Ends read last (inputs ++ more) r s' := by
  induction more generalizing inputs s with
  | nil =>
    cases hrun
    rw [List.append_nil]
    exact .finished h
  | cons path more ih =>
    rw [List.forM, outcome_bind] at hrun
    generalize hone : outcome (do compileSource last showOutline (← load read path)) s = one at hrun
    obtain ⟨r₁, s₁⟩ := one
    rcases h.step hone with ⟨rfl, hloaded⟩ | ⟨halt, rfl, hnew, hstops⟩
    · have hrest := ih hloaded hrun
      rwa [List.append_assoc, List.singleton_append] at hrest
    · cases hrun
      exact .stopped rfl h hnew hstops

/-- A run over inputs compiles them all or stops at one of them. -/
theorem ends_run {stdin : List UInt8} {r : Except Halt Unit} (hinputs : inputs ≠ [])
    (h : (run read stdin last showOutline inputs).run {} = (r, s)) : Ends read last inputs r s := by
  have hempty : inputs.isEmpty = false := by simpa using hinputs
  rw [run, hempty] at h
  exact Loaded.run loaded_start h

end Pipeline

end MiniJ
