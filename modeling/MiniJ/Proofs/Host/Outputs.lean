import MiniJ.Host.Session
import MiniJ.Proofs.Compilation.Phases
import MiniJ.Proofs.Compilation.Pipeline
import MiniJ.Proofs.Host.FileTree
import Mathlib.Data.List.Nodup
import Mathlib.Data.List.Perm.Subperm

/-!
# Where the assembly of a run goes

Without an output file, the program that is loaded as number `i` is written to the output of input
number `i`. That is its own output as long as no input is repeated before a new one. Otherwise the
programs behind the repetition are written to the outputs of other inputs, and at least one input
finds nothing in its own output.

## Main statements

* `Session.outputs_by_position` — which output holds which assembly.
-/
namespace MiniJ

namespace Session

open Pipeline

variable {config : Config} {files : FileTree} {stdin : List UInt8}

/-- The file that the assembly of an input belongs into. -/
def home? (input : String) : Option (List String) :=
  Path.destination? (Path.withExtension input "asm")

/-- The assembly of the program at a path, which was loaded under this number. -/
def Assembles (files : FileTree) (id : SourceId) (path text : String) : Prop :=
  ∃ bytes artifact, files.read path = .ok bytes ∧ Compiled .generate id bytes artifact ∧
    artifact.assembly = some text

/-! ### Programs and writes -/

/-- The actions of a run that writes next to its inputs. -/
theorem actions_eq {texts : List String} {artifacts : List Artifact} {index : Nat}
    (hout : config.output = none) (htexts : artifacts.map (·.assembly) = texts.map some)
    (hcount : index + texts.length ≤ config.inputs.length) :
    actions config index artifacts = List.zipWith
      (fun input text => .write (Path.withExtension input "asm") text)
      (config.inputs.drop index) texts := by
  induction texts generalizing index artifacts with
  | nil =>
    rw [List.map_nil, List.map_eq_nil_iff] at htexts
    rw [htexts, List.zipWith_nil_right]
    rfl
  | cons text texts ih =>
    obtain ⟨artifact, artifacts, rfl, hfirst, hothers⟩ := List.map_eq_cons_iff.1 htexts
    rw [List.length_cons] at hcount
    have hlt : index < config.inputs.length := by omega
    rw [actions, hfirst, List.drop_eq_getElem_cons hlt, List.zipWith_cons_cons,
      ih hothers (by omega)]
    simp [Config.outputFor, hout, List.getElem?_eq_getElem hlt]

/-- Writes that all succeed. -/
theorem perform_writes {inputs texts : List String} {printed printed' : String}
    {files files' : FileTree} (hlength : texts.length ≤ inputs.length)
    (h : perform files printed (List.zipWith
      (fun input text => .write (Path.withExtension input "asm") text) inputs texts) =
        (files', printed', .ok ())) :
    ∃ homes : List (List String), (inputs.take texts.length).map home? = homes.map some ∧
      files' = files.insertAll (homes.zip (texts.map Text.encode)) := by
  induction texts generalizing inputs files with
  | nil =>
    rw [List.zipWith_nil_right] at h
    cases h
    exact ⟨[], rfl, rfl⟩
  | cons text texts ih =>
    obtain ⟨input, inputs, rfl⟩ := List.exists_cons_of_length_pos (Nat.zero_lt_of_lt hlength)
    rw [List.zipWith_cons_cons, perform] at h
    cases hwrite : files.write (Path.withExtension input "asm") (Text.encode text) with
    | error e =>
      rw [hwrite] at h
      cases h
    | ok files₁ =>
      rw [hwrite] at h
      obtain ⟨segments, hhome, rfl⟩ := FileTree.write_eq_ok hwrite
      obtain ⟨homes, hhomes, rfl⟩ := ih (Nat.le_of_succ_le_succ hlength) h
      refine ⟨segments :: homes, ?_, rfl⟩
      rw [List.length_cons, List.take_succ_cons, List.map_cons, hhomes, home?, hhome, List.map_cons]

/-- The assembly of the loaded programs, in order. -/
theorem texts_of_loaded {inputs : List String} {s : State}
    (h : Loaded files.read .generate inputs s) :
    ∃ texts : List String, (s.units.map (·.2)).map (·.assembly) = texts.map some ∧
      texts.length = (firsts inputs).length ∧
      ∀ i path, (firsts inputs)[i]? = some path →
        ∃ text, texts[i]? = some text ∧ Assembles files (i + 2) path text := by
  have hcompiled : ∀ i path, (firsts inputs)[i]? = some path → ∃ artifact text,
      s.units[i]? = some (i + 2, artifact) ∧ artifact.assembly = some text ∧
        Assembles files (i + 2) path text := by
    intro i path hpath
    rw [← h.paths, List.getElem?_map, Option.map_eq_some_iff] at hpath
    obtain ⟨file, hfile, rfl⟩ := hpath
    rw [Array.getElem?_toList] at hfile
    obtain ⟨artifact, hunit, hartifact⟩ := h.units i file hfile
    obtain ⟨a, hread, hdone⟩ := id hartifact
    obtain ⟨text, htext⟩ := assembly_of_compileArena hdone
    exact ⟨artifact, text, hunit, htext, file.bytes, artifact,
      h.contents file (Array.mem_of_getElem? hfile), hartifact, htext⟩
  have hlength : s.units.length = (firsts inputs).length := by
    rw [h.count, ← h.paths]
    simp
  refine ⟨s.units.map fun unit => unit.2.assembly.getD "", ?_, by simp [hlength], ?_⟩
  · refine List.ext_getElem? fun i => ?_
    simp only [List.map_map, List.getElem?_map]
    cases hunit : s.units[i]? with
    | none => rfl
    | some unit =>
      have hlt := (List.getElem?_eq_some_iff.1 hunit).1
      obtain ⟨artifact, text, hunit', htext, -⟩ :=
        hcompiled i _ (List.getElem?_eq_getElem (hlength ▸ hlt))
      cases hunit.symm.trans hunit'
      simp [htext]
  · intro i path hpath
    obtain ⟨artifact, text, hunit, htext, hassembles⟩ := hcompiled i path hpath
    exact ⟨text, by simp [hunit, htext], hassembles⟩

theorem length_loadInto_le (loaded : List String) (path : String) :
    (loadInto loaded path).length ≤ loaded.length + 1 := by
  unfold loadInto
  split <;> simp

theorem length_foldl_loadInto_le (inputs loaded : List String) :
    (inputs.foldl loadInto loaded).length ≤ loaded.length + inputs.length := by
  induction inputs generalizing loaded with
  | nil => simp
  | cons path inputs ih =>
    have hfirst := length_loadInto_le loaded path
    have hrest := ih (loadInto loaded path)
    rw [List.foldl_cons, List.length_cons]
    omega

/-- The files after a run that wrote the assembly of program number `i` to the output of input
number `i`. -/
structure ByPosition (inputs : List String) (files after : FileTree) (texts : List String)
    (homes : List (List String)) : Prop where
  count : texts.length = (firsts inputs).length
  assembles : ∀ i path, (firsts inputs)[i]? = some path →
    ∃ text, texts[i]? = some text ∧ Assembles files (i + 2) path text
  places : (inputs.take (firsts inputs).length).map home? = homes.map some
  written : after = files.insertAll (homes.zip (texts.map Text.encode))

theorem byPosition_of_run (hout : config.output = none) (hphase : config.stopAfter = .generate)
    (hinputs : config.inputs ≠ []) (hok : (run config files stdin).result = .ok ()) :
    ∃ texts homes, ByPosition config.inputs files (run config files stdin).files texts homes := by
  generalize hpipeline : (Pipeline.run files.read stdin config.stopAfter config.showOutline
    config.inputs).run {} = outcome
  obtain ⟨result, s⟩ := outcome
  have hends := ends_run hinputs hpipeline
  simp only [run, plan, hpipeline] at hok ⊢
  cases hends with
  | stopped => cases ‹Halt› <;> cases hok
  | finished loaded =>
    dsimp only at hok ⊢
    rw [hphase] at loaded
    obtain ⟨texts, hassembly, hlength, htexts⟩ := texts_of_loaded loaded
    have hcount : texts.length ≤ config.inputs.length := by
      have hfirsts := length_foldl_loadInto_le config.inputs []
      rw [hlength, firsts]
      simpa using hfirsts
    rw [actions_eq hout hassembly (by omega), List.drop_zero] at hok ⊢
    generalize hperform : perform files _ _ = performed at hok ⊢
    obtain ⟨files', printed', done⟩ := performed
    dsimp only at hok ⊢
    rw [hok] at hperform
    obtain ⟨homes, hhomes, rfl⟩ := perform_writes hcount hperform
    exact ⟨texts, homes, hlength, htexts, hlength ▸ hhomes, rfl⟩

/-! ### Repeated inputs -/

section Repetition

variable {inputs : List String}

/-- Inputs that name the same program are spelled alike. -/
def SpelledAlike (inputs : List String) : Prop :=
  ∀ p ∈ inputs, ∀ q ∈ inputs, samePath p q = true → p = q

theorem loadInto_eq {loaded : List String} {path : String} (h : SpelledAlike inputs)
    (hloaded : loaded ⊆ inputs) (hpath : path ∈ inputs) :
    loadInto loaded path = if path ∈ loaded then loaded else loaded ++ [path] := by
  have hany : loaded.any (samePath · path) = true ↔ path ∈ loaded := by
    rw [List.any_eq_true]
    constructor
    · rintro ⟨p, hp, hsame⟩
      exact h p (hloaded hp) path hpath hsame ▸ hp
    · intro hmem
      exact ⟨path, hmem, by simp [samePath]⟩
  rw [loadInto]
  exact if_congr hany rfl rfl

/-- What loading some of the inputs adds to those that are loaded. -/
theorem foldl_loadInto {loaded more : List String} (h : SpelledAlike inputs)
    (hloaded : loaded ⊆ inputs) (hmore : more ⊆ inputs) :
    loaded <+: more.foldl loadInto loaded ∧ more.foldl loadInto loaded ⊆ inputs ∧
      more ⊆ more.foldl loadInto loaded ∧
      (loaded.Nodup → (more.foldl loadInto loaded).Nodup) ∧
      ((loaded ++ more).Nodup → more.foldl loadInto loaded = loaded ++ more) := by
  induction more generalizing loaded with
  | nil => simpa using hloaded
  | cons path more ih =>
    obtain ⟨hpath, hmore⟩ := List.cons_subset.1 hmore
    have hone := loadInto_eq h hloaded hpath
    rw [List.foldl_cons]
    by_cases hmem : path ∈ loaded
    · rw [hone, if_pos hmem]
      obtain ⟨hbegin, hsub, hall, hnodup, -⟩ := ih hloaded hmore
      refine ⟨hbegin, hsub, List.cons_subset.2 ⟨hbegin.subset hmem, hall⟩, hnodup,
        fun hdistinct => ?_⟩
      exact absurd rfl ((List.nodup_append.1 hdistinct).2.2 path hmem path (by simp))
    · rw [hone, if_neg hmem]
      have hlonger : loaded ++ [path] ⊆ inputs := by
        simp [List.append_subset, hloaded, hpath]
      obtain ⟨hbegin, hsub, hall, hnodup, heq⟩ := ih hlonger hmore
      refine ⟨(List.prefix_append _ _).trans hbegin, hsub,
        List.cons_subset.2 ⟨hbegin.subset (by simp), hall⟩, fun hdistinct => hnodup ?_,
        fun hdistinct => ?_⟩
      · exact (List.perm_append_singleton path loaded).nodup_iff.2
          (List.nodup_cons.2 ⟨hmem, hdistinct⟩)
      · rw [heq (by simpa using hdistinct)]
        simp

/-- If the inputs that are loaded are not the first ones, one of them is not among the first
ones. -/
theorem exists_not_mem_take (h : SpelledAlike inputs) (hfirsts : ¬firsts inputs <+: inputs) :
    ∃ p ∈ inputs, p ∉ inputs.take (firsts inputs).length := by
  obtain ⟨-, hsub, -, hnodup, -⟩ := foldl_loadInto h (List.nil_subset inputs)
    (List.Subset.refl inputs)
  by_contra hnone
  have hall : ∀ p ∈ inputs, p ∈ inputs.take (firsts inputs).length := by
    simpa using hnone
  have hlength : (inputs.take (firsts inputs).length).length ≤ (firsts inputs).length :=
    List.length_take_le _ _
  -- the loaded inputs are then the first ones in some order, which are therefore all different
  have hperm : (firsts inputs).Perm (inputs.take (firsts inputs).length) :=
    ((hnodup List.nodup_nil).subperm fun p hp => hall p (hsub hp)).perm_of_length_le hlength
  have hsplit : firsts inputs = (inputs.drop (firsts inputs).length).foldl loadInto
      ((inputs.take (firsts inputs).length).foldl loadInto []) := by
    conv => lhs; rw [firsts, ← List.take_append_drop (firsts inputs).length inputs]
    rw [List.foldl_append]
  obtain ⟨-, -, -, -, heq⟩ := foldl_loadInto h (List.nil_subset inputs) (List.take_subset _ inputs)
  rw [heq (by simpa using hperm.nodup_iff.1 (hnodup List.nodup_nil)), List.nil_append] at hsplit
  obtain ⟨hbegin, -⟩ := foldl_loadInto h (List.take_subset (firsts inputs).length inputs)
    (List.drop_subset (firsts inputs).length inputs)
  rw [← hsplit] at hbegin
  have htake := hbegin.eq_of_length hperm.length_eq.symm
  exact hfirsts (htake ▸ List.take_prefix _ _)

end Repetition

namespace ByPosition

variable {inputs texts : List String} {files after : FileTree} {homes : List (List String)}
  (h : ByPosition inputs files after texts homes)
include h

theorem length_homes_le : homes.length ≤ (texts.map Text.encode).length := by
  have hlength := congrArg List.length h.places
  simp only [List.length_map, List.length_take] at hlength
  rw [List.length_map, h.count]
  omega

/-- The files that are written. -/
theorem map_fst_zip : (homes.zip (texts.map Text.encode)).map Prod.fst = homes :=
  List.map_fst_zip h.length_homes_le

theorem lookup_of_not_mem {segments : List String} (hsegments : segments ∉ homes) :
    after.files.lookup segments = files.files.lookup segments := by
  rw [h.written]
  exact FileTree.lookup_insertAll_of_not_mem (by rwa [h.map_fst_zip])

/-- A file is written only if it is the output of one of the first inputs. -/
theorem exists_mem_take {segments : List String} (hsegments : segments ∈ homes) :
    ∃ p ∈ inputs.take (firsts inputs).length, home? p = some segments := by
  have hmem : some segments ∈ (inputs.take (firsts inputs).length).map home? :=
    h.places ▸ List.mem_map_of_mem hsegments
  obtain ⟨p, hp, hhome⟩ := List.mem_map.1 hmem
  exact ⟨p, hp, hhome⟩

/-- The output of an input holds the assembly of the program with its number. -/
theorem lookup_of_getElem? {i : Nat} {p q : String} (hdistinct : homes.Nodup)
    (hp : (firsts inputs)[i]? = some p) (hq : inputs[i]? = some q) : ∃ text segments,
      Assembles files (i + 2) p text ∧ home? q = some segments ∧
        after.files.lookup segments = some (Text.encode text) := by
  obtain ⟨text, htext, hassembles⟩ := h.assembles i p hp
  have hi := (List.getElem?_eq_some_iff.1 hp).1
  obtain ⟨segments, hplace, hhome⟩ :
      ∃ segments, homes[i]? = some segments ∧ some segments = home? q := by
    rw [← Option.map_eq_some_iff, ← List.getElem?_map, ← h.places, List.getElem?_map,
      List.getElem?_take_of_lt hi, hq, Option.map_some]
  have hwritten : (segments, Text.encode text) ∈ homes.zip (texts.map Text.encode) :=
    List.mem_of_getElem? (List.getElem?_zip_eq_some.2
      ⟨hplace, by rw [List.getElem?_map, htext, Option.map_some]⟩)
  refine ⟨text, segments, hassembles, hhome.symm, ?_⟩
  rw [h.written]
  exact FileTree.lookup_insertAll_of_mem (by rwa [h.map_fst_zip]) hwritten

end ByPosition

/-- Where the assembly of several inputs goes when no output file is given, repeated inputs are
spelled alike and different inputs have different outputs. If no input is repeated before a new one,
each output holds the assembly of its own input; otherwise some input is compiled and its output
does not change. Other files never change. -/
theorem outputs_by_position (hout : config.output = none) (hphase : config.stopAfter = .generate)
    (hinputs : config.inputs ≠ []) (halike : SpelledAlike config.inputs)
    (hhomes : ∀ p ∈ config.inputs, ∀ q ∈ config.inputs, home? p = home? q → p = q)
    (hok : (run config files stdin).result = .ok ()) :
    (firsts config.inputs <+: config.inputs → ∀ p ∈ config.inputs, ∃ id text segments,
      Assembles files id p text ∧ home? p = some segments ∧
        (run config files stdin).files.files.lookup segments = some (Text.encode text)) ∧
    (¬firsts config.inputs <+: config.inputs → ∃ p ∈ config.inputs, ∃ id text,
      Assembles files id p text ∧ ∀ segments, home? p = some segments →
        (run config files stdin).files.files.lookup segments = files.files.lookup segments) ∧
    ∀ segments, (∀ p ∈ config.inputs, home? p ≠ some segments) →
      (run config files stdin).files.files.lookup segments = files.files.lookup segments := by
  obtain ⟨texts, homes, hposition⟩ := byPosition_of_run hout hphase hinputs hok
  obtain ⟨-, hsub, hall, hnodup, -⟩ :=
    foldl_loadInto halike (List.nil_subset config.inputs) (List.Subset.refl config.inputs)
  have hfirsts : ∀ p ∈ config.inputs, ∃ i, (firsts config.inputs)[i]? = some p := fun p hp =>
    List.mem_iff_getElem?.1 (hall hp)
  refine ⟨fun hbegins p hp => ?_, fun hnot => ?_, fun segments hsegments => ?_⟩
  · have htake : config.inputs.take (firsts config.inputs).length = firsts config.inputs :=
      (List.prefix_iff_eq_take.1 hbegins).symm
    have hdistinct : homes.Nodup := by
      have hsome : (homes.map some).Nodup := by
        rw [← hposition.places, htake]
        refine List.Nodup.map_on (fun p hp q hq => ?_) (hnodup List.nodup_nil)
        exact hhomes p (hsub hp) q (hsub hq)
      exact List.Nodup.of_map _ hsome
    obtain ⟨i, hi⟩ := hfirsts p hp
    obtain ⟨hlt, -⟩ := List.getElem?_eq_some_iff.1 hi
    have hput : config.inputs[i]? = some p := by
      rw [← List.getElem?_take_of_lt hlt, htake, hi]
    obtain ⟨text, segments, hstored⟩ := hposition.lookup_of_getElem? hdistinct hi hput
    exact ⟨i + 2, text, segments, hstored⟩
  · obtain ⟨p, hp, hlate⟩ := exists_not_mem_take halike hnot
    obtain ⟨i, hi⟩ := hfirsts p hp
    obtain ⟨text, -, hassembles⟩ := hposition.assembles i p hi
    refine ⟨p, hp, i + 2, text, hassembles, fun segments hhome => hposition.lookup_of_not_mem ?_⟩
    intro hmem
    obtain ⟨q, hq, hhome'⟩ := hposition.exists_mem_take hmem
    exact hlate (hhomes q (List.mem_of_mem_take hq) p hp (hhome'.trans hhome.symm) ▸ hq)
  · refine hposition.lookup_of_not_mem fun hmem => ?_
    obtain ⟨q, hq, hhome⟩ := hposition.exists_mem_take hmem
    exact hsegments q (List.mem_of_mem_take hq) hhome

namespace Sample

/-- Two programs, the first of which is named twice. -/
def repeated : Config := { inputs := ["a.mj", "a.mj", "b.mj"] }

def tree : FileTree := ⟨[(["a.mj"], Text.encode "int x;"), (["b.mj"], Text.encode "int y;")]⟩

theorem result_run : (run repeated tree []).result = .ok () := by decide +kernel

/-- The output of the second program does not appear. -/
theorem outputs_not_own : ¬firsts repeated.inputs <+: repeated.inputs ∧
    ∃ p ∈ repeated.inputs, ∃ id text,
    Assembles tree id p text ∧ ∀ segments, home? p = some segments →
      (run repeated tree []).files.files.lookup segments = tree.files.lookup segments := by
  have hnot : ¬firsts repeated.inputs <+: repeated.inputs := by decide +kernel
  have hown := @outputs_by_position repeated tree [] rfl rfl (by decide)
    (by unfold SpelledAlike; decide +kernel) (by decide +kernel) result_run
  exact ⟨hnot, hown.2.1 hnot⟩

end Sample

end Session

end MiniJ
