import MiniJ.Host.FileTree

/-!
# Writing files

A write changes one file, and which one it is can be told from the path alone: its segments lead
there whatever files exist.

## Main definitions

* `Path.destination?` — the file that a path leads to.

## Main statements

* `FileTree.write_eq_ok` — a write that succeeds changes the file its path leads to.
* `FileTree.lookup_insert` — a changed file has new contents, all others keep theirs.
-/
namespace MiniJ

/-- Where segments lead from a directory, as far as their spelling tells. They lead to no file if
they end in a directory or leave the working directory. -/
def Path.follow (directory : List String) : List String → Option (List String)
  | [] => none
  | segment :: rest =>
    if isVoid segment then follow directory rest
    else if segment = ".." then
      if directory.isEmpty then none else follow directory.dropLast rest
    else if rest.isEmpty then some (directory ++ [segment])
    else follow (directory ++ [segment]) rest

/-- The segments, below the working directory, of the file that a path leads to. -/
def Path.destination? (path : String) : Option (List String) := follow [] (segments path)

/-- Names that lead to files of the working directory itself. -/
structure Path.Plain (name : String) : Prop where
  slash : '/' ∉ name.toList
  nul : Char.ofNat 0 ∉ name.toList
  ordinary : isVoid name = false
  inside : name ≠ ".."
  short : name.utf8ByteSize ≤ 255

theorem Path.Plain.segments {name : String} (h : Plain name) : Path.segments name = [name] := by
  have hlength := Text.length_pieces '/' name.toList
  rw [List.count_eq_zero.2 h.slash] at hlength
  obtain ⟨piece, hpiece⟩ := List.length_eq_one_iff.1 hlength
  have hback := Text.intercalate_pieces '/' name.toList
  rw [hpiece] at hback
  rw [Path.segments, Text.split, hpiece, List.map_singleton]
  simp only [List.intercalate, List.intersperse_singleton, List.flatten_singleton] at hback
  rw [hback, String.ofList_toList]

theorem Path.Plain.key {name : String} (h : Plain name) : Path.key name = [name] := by
  rw [Path.key, h.segments]
  rfl

namespace FileTree

variable {t t' : FileTree} {path : String} {segments : List String} {bytes : List UInt8}

/-- The place of a file that can be written. -/
def Target.place? : Target → Option (List String)
  | file segments _ | vacant segments => some segments
  | directory | noDirectory _ => none

theorem outside_place? {rest : List String} {target : Target} (h : outside rest = .ok target) :
    target.place? = none := by
  unfold outside at h
  split at h
  · cases h
    rfl
  · cases h

theorem follow_place? {directory rest : List String} {target : Target}
    (h : t.follow directory rest = .ok target) (hplace : target.place? = some segments) :
    Path.follow directory rest = some segments := by
  induction rest generalizing directory with
  | nil =>
    cases h
    cases hplace
  | cons segment rest ih =>
    rw [follow] at h
    rw [Path.follow]
    split at h
    · next hvoid =>
      rw [if_pos hvoid]
      exact ih h
    · next hvoid =>
      rw [if_neg hvoid]
      split at h
      · next hup =>
        rw [if_pos hup]
        split at h
        · rw [outside_place? h] at hplace
          cases hplace
        · next hinside =>
          rw [if_neg hinside]
          exact ih h
      · next hup =>
        rw [if_neg hup]
        split at h
        · cases h
        · dsimp only at h
          split at h
          · split at h
            · next hlast =>
              cases h
              rwa [if_pos hlast]
            · split at h <;> cases h
              cases hplace
          · split at h
            · split
              · next hlast =>
                rw [List.isEmpty_iff.1 hlast, follow] at h
                cases h
                cases hplace
              · exact ih h
            · split at h
              · next hlast =>
                cases h
                rwa [if_pos hlast]
              · split at h <;> cases h
                cases hplace

theorem target_place? {target : Target} (h : t.target path = .ok target)
    (hplace : target.place? = some segments) : Path.destination? path = some segments := by
  unfold FileTree.target at h
  repeat' split at h
  · cases h
  · cases h
  · cases h
  · rw [outside_place? h] at hplace
    cases hplace
  · exact follow_place? h hplace

/-- A write that succeeds changes the file its path leads to. -/
theorem write_eq_ok (h : t.write path bytes = .ok t') :
    ∃ segments, Path.destination? path = some segments ∧ t' = t.insert segments bytes := by
  unfold write at h
  cases htarget : t.target path with
  | error e =>
    rw [htarget] at h
    cases h
  | ok target =>
    rw [htarget] at h
    cases target with
    | file segments old =>
      cases h
      exact ⟨segments, target_place? htarget rfl, rfl⟩
    | vacant segments =>
      cases h
      exact ⟨segments, target_place? htarget rfl, rfl⟩
    | directory => cases h
    | noDirectory e => cases h

/-- A changed file has new contents, all others keep theirs. -/
theorem lookup_insert (q : List String) : (t.insert segments bytes).files.lookup q =
    if q = segments then some bytes else t.files.lookup q := by
  rw [insert, List.lookup_cons]
  by_cases hq : q = segments
  · simp [hq]
  · have hbeq : (q == segments) = false := by simpa using hq
    rw [hbeq, if_neg hq]
    dsimp only
    induction t.files with
    | nil => rfl
    | cons file files ih =>
      rw [List.filter_cons, List.lookup_cons]
      split
      · rw [List.lookup_cons, ih]
      · next hfile =>
        have hfile : file.1 = segments := by simpa using hfile
        have hne : (q == file.1) = false := by simpa [hfile] using hq
        rw [hne, ih]

/-- A file with a plain name is read. -/
theorem read_of_plain {name : String} (h : Path.Plain name)
    (hlookup : t.files.lookup [name] = some bytes) :
    t.read name = .ok bytes := by
  have hempty : name ≠ "" := fun heq => by
    have hordinary := h.ordinary
    rw [heq] at hordinary
    cases hordinary
  have hhead : name.toList.head? ≠ some '/' := fun heq => h.slash (List.mem_of_head? heq)
  have hshort : ¬name.utf8ByteSize > 4095 := by
    have := h.short
    omega
  have hfollow : t.follow [] [name] = .ok (.file [name] bytes) := by
    simp [follow, h.ordinary, h.inside, Nat.not_lt.2 h.short, hlookup]
  have htarget : t.target name = .ok (.file [name] bytes) := by
    rw [target, if_neg hempty, if_neg (by simpa using h.nul), if_neg hshort, if_neg hhead,
      h.segments, hfollow]
  rw [read, htarget]
  rfl

/-- Several writes behind each other. -/
def insertAll (t : FileTree) (writes : List (List String × List UInt8)) : FileTree :=
  writes.foldl (fun t write => t.insert write.1 write.2) t

/-- Files that are not written keep their contents. -/
theorem lookup_insertAll_of_not_mem {writes : List (List String × List UInt8)} {q : List String}
    (h : q ∉ writes.map Prod.fst) : (t.insertAll writes).files.lookup q = t.files.lookup q := by
  induction writes generalizing t with
  | nil => rfl
  | cons write writes ih =>
    rw [List.map_cons, List.mem_cons, not_or] at h
    have hrest : (t.insertAll (write :: writes)).files.lookup q =
        (t.insert write.1 write.2).files.lookup q := ih h.2
    rw [hrest, lookup_insert, if_neg h.1]

/-- A file that is written once has what was written. -/
theorem lookup_insertAll_of_mem {writes : List (List String × List UInt8)} {q : List String}
    (hnodup : (writes.map Prod.fst).Nodup) (h : (q, bytes) ∈ writes) :
    (t.insertAll writes).files.lookup q = some bytes := by
  induction writes generalizing t with
  | nil => cases h
  | cons write writes ih =>
    rw [List.map_cons, List.nodup_cons] at hnodup
    rcases List.mem_cons.1 h with rfl | h
    · have hrest : (t.insertAll ((q, bytes) :: writes)).files.lookup q =
          (t.insert q bytes).files.lookup q := lookup_insertAll_of_not_mem hnodup.1
      rw [hrest, lookup_insert, if_pos rfl]
    · exact ih hnodup.2 h

end FileTree

end MiniJ
