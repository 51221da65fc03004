import Mathlib.Data.List.Basic
import Mathlib.Data.Set.Insert
import Tidemark.Checkpoint.FileStep
import Tidemark.Proofs.Command

/-! Flat trees: directories under the top, and files in them. Such a tree is known by its
directories and by the contents of its files, and every step on it does what it says to these. -/

namespace Tidemark

/-- Where a file of a flat tree is: its directory and its name. -/
abbrev Place := String × String

namespace Place

def path (x : Place) : Path := [x.1, x.2]

theorem path_inj {x y : Place} : x.path = y.path ↔ x = y := by
  simp [path, Prod.ext_iff]

end Place

namespace FileTree

/-- The tree has these directories under its top, with files of these contents in them. -/
structure Flat (t : FileTree) (dirs : Set String) (files : Place → Option Bytes) : Prop where
  top : t.nodes[([] : Path)]? = some .directory
  directory : ∀ d ∈ dirs, t.nodes[[d]]? = some .directory
  noDirectory : ∀ d ∉ dirs, t.nodes[[d]]? = none
  file : ∀ x : Place, t.nodes[x.path]? = (files x).map .file
  parent : ∀ x : Place, (files x).isSome → x.1 ∈ dirs

variable {t : FileTree} {dirs : Set String} {files : Place → Option Bytes}

theorem flat_empty (top : String) : (empty top).Flat ∅ fun _ => none where
  top := by simp [empty]
  directory d hd := absurd hd (Set.notMem_empty d)
  noDirectory d _ := by simp [empty]
  file x := by simp [empty, Place.path]
  parent x hx := by simp at hx

theorem Flat.mem_dirs (h : t.Flat dirs files) {d : String} :
    d ∈ dirs ↔ t.nodes[[d]]? = some .directory := by
  refine ⟨h.directory d, fun hd => ?_⟩
  by_contra hout
  rw [h.noDirectory d hout] at hd
  cases hd

/-- A tree is flat in one way only. -/
theorem Flat.unique {dirs' : Set String} {files' : Place → Option Bytes} (h : t.Flat dirs files)
    (h' : t.Flat dirs' files') : dirs = dirs' ∧ files = files' := by
  constructor
  · ext d
    rw [h.mem_dirs, h'.mem_dirs]
  · funext x
    refine Option.map_injective (fun _ _ he => Node.file.inj he) ?_
    rw [← h.file, h'.file]

/-! ### Looking -/

theorem Flat.block?_of_mem (h : t.Flat dirs files) {x : Place} (hx : x.1 ∈ dirs) :
    t.block? x.path = none := by
  simp [block?, blockFrom, Place.path, h.top, h.directory x.1 hx]

theorem Flat.find_directory (h : t.Flat dirs files) {d : String} (hd : d ∈ dirs) :
    t.find [d] = .ok .directory := by
  simp [find, block?, blockFrom, h.top, h.directory d hd]

theorem Flat.find_eq_directory (h : t.Flat dirs files) {d : String} :
    t.find [d] = .ok .directory ↔ d ∈ dirs := by
  refine ⟨fun hfind => ?_, h.find_directory⟩
  by_contra hd
  simp [find, block?, blockFrom, h.top, h.noDirectory d hd] at hfind

theorem Flat.find_file (h : t.Flat dirs files) (x : Place) :
    t.find x.path = match files x with
      | some content => .ok (.file content)
      | none => .error .notFound := by
  by_cases hx : x.1 ∈ dirs
  · rw [find, h.block?_of_mem hx, h.file]
    cases files x <;> rfl
  · have hnone : files x = none := by
      rw [← Option.not_isSome_iff_eq_none]
      exact fun hsome => hx (h.parent x hsome)
    have hblock : t.block? x.path = some .notFound := by
      simp [block?, blockFrom, Place.path, h.top, h.noDirectory x.1 hx]
    rw [find, hblock, hnone]

theorem Flat.readFile (h : t.Flat dirs files) (x : Place) :
    t.readFile x.path = match files x with
      | some content => .ok content
      | none => .error .notFound := by
  rw [FileTree.readFile, h.find_file]
  cases files x <;> rfl

theorem Flat.isFile (h : t.Flat dirs files) (x : Place) : t.isFile x.path = (files x).isSome := by
  rw [FileTree.isFile, h.find_file]
  cases files x <;> rfl

theorem Flat.isPresent (h : t.Flat dirs files) (x : Place) :
    t.isPresent x.path = (files x).isSome := by
  rw [FileTree.isPresent, h.find_file]
  cases files x <;> rfl

/-- What is listed of a directory `p` for a node `n` at `q`. -/
theorem child_eq_some {p q : Path} {n : Node} {x : String × Node} :
    (match q.getLast? with
      | some name => if q.dropLast = p then some (name, n) else none
      | none => none) = some x ↔ q = p ++ [x.1] ∧ n = x.2 := by
  obtain ⟨name, n'⟩ := x
  constructor
  · intro h
    split at h
    · next last hlast =>
      split at h
      · next hp =>
        obtain ⟨rfl, rfl⟩ := Prod.mk.inj (Option.some.inj h)
        exact ⟨by rw [← hp, List.dropLast_append_getLast? _ hlast], rfl⟩
      · cases h
    · cases h
  · rintro ⟨rfl, rfl⟩
    simp

/-- A directory lists the nodes in it, each name once. -/
theorem children_spec {p : Path} {l : List (String × Node)} (h : t.children p = .ok l) :
    (∀ name n, (name, n) ∈ l ↔ t.nodes[p ++ [name]]? = some n) ∧
      l.Pairwise fun x y => x.1 ≠ y.1 := by
  unfold children at h
  split at h
  · cases h
  · cases h
  · obtain rfl := Except.ok.inj h
    refine ⟨fun name n => ?_, ?_⟩
    · rw [List.mem_filterMap]
      constructor
      · rintro ⟨⟨q, n'⟩, hq, he⟩
        obtain ⟨rfl, rfl⟩ := child_eq_some.1 he
        exact Std.ExtTreeMap.mem_toList_iff_getElem?_eq_some.1 hq
      · intro hn
        exact ⟨(p ++ [name], n), Std.ExtTreeMap.mem_toList_iff_getElem?_eq_some.2 hn,
          child_eq_some.2 ⟨rfl, rfl⟩⟩
    · refine Std.ExtTreeMap.distinct_keys_toList.filterMap _ ?_
      rintro ⟨q, n⟩ ⟨q', n'⟩ hne x hx y hy he
      obtain ⟨rfl, _⟩ := child_eq_some.1 hx
      obtain ⟨rfl, _⟩ := child_eq_some.1 hy
      exact hne (Std.compare_eq_iff_eq.2 (by rw [he]))

/-! ### Steps -/

theorem getElem?_put (t : FileTree) (p q : Path) (n : Node) :
    (t.put p n).nodes[q]? = if p = q then some n else t.nodes[q]? := by
  simp only [put, Std.ExtTreeMap.getElem?_insert, Std.compare_eq_iff_eq]

theorem getElem?_erase (t : FileTree) (p q : Path) :
    (t.erase p).nodes[q]? = if p = q then none else t.nodes[q]? := by
  simp only [erase, Std.ExtTreeMap.getElem?_erase, Std.compare_eq_iff_eq]

theorem Flat.put_directory (h : t.Flat dirs files) (d : String) :
    (t.put [d] .directory).Flat (insert d dirs) files where
  top := by simp [getElem?_put, h.top]
  directory e he := by
    rw [getElem?_put]
    split
    · rfl
    · next hne => exact h.directory e (he.resolve_left fun heq => hne (by rw [heq]))
  noDirectory e he := by
    rw [Set.mem_insert_iff, not_or] at he
    rw [getElem?_put, if_neg fun heq => he.1 (List.cons.inj heq).1.symm, h.noDirectory e he.2]
  file x := by simpa [getElem?_put, Place.path] using h.file x
  parent x hx := .inr (h.parent x hx)

theorem Flat.put_file (h : t.Flat dirs files) {x : Place} (hx : x.1 ∈ dirs) (content : Bytes) :
    (t.put x.path (.file content)).Flat dirs (Function.update files x (some content)) where
  top := by simp [getElem?_put, Place.path, h.top]
  directory d hd := by simp [getElem?_put, Place.path, h.directory d hd]
  noDirectory d hd := by simp [getElem?_put, Place.path, h.noDirectory d hd]
  file y := by
    simp only [getElem?_put, Place.path_inj, h.file]
    by_cases hy : x = y
    · simp [hy]
    · simp [hy, Function.update_of_ne (Ne.symm hy)]
  parent y hy := by
    by_cases he : y = x
    · exact he ▸ hx
    · rw [Function.update_of_ne he] at hy
      exact h.parent y hy

theorem Flat.erase_file (h : t.Flat dirs files) (x : Place) :
    (t.erase x.path).Flat dirs (Function.update files x none) where
  top := by simp [getElem?_erase, Place.path, h.top]
  directory d hd := by simp [getElem?_erase, Place.path, h.directory d hd]
  noDirectory d hd := by simp [getElem?_erase, Place.path, h.noDirectory d hd]
  file y := by
    simp only [getElem?_erase, Place.path_inj, h.file]
    by_cases hy : x = y
    · simp [hy]
    · simp [hy, Function.update_of_ne (Ne.symm hy)]
  parent y hy := by
    by_cases he : y = x
    · simp [he] at hy
    · rw [Function.update_of_ne he] at hy
      exact h.parent y hy

theorem Flat.erase_directory (h : t.Flat dirs files) {d : String}
    (hempty : ∀ name, files (d, name) = none) : (t.erase [d]).Flat (dirs \ {d}) files where
  top := by simp [getElem?_erase, h.top]
  directory e he := by
    rw [getElem?_erase, if_neg fun heq => he.2 (List.cons.inj heq).1.symm, h.directory e he.1]
  noDirectory e he := by
    rw [getElem?_erase]
    split
    · rfl
    · next hne => exact h.noDirectory e fun hmem => he ⟨hmem, fun heq => hne (by rw [heq])⟩
  file x := by simpa [getElem?_erase, Place.path] using h.file x
  parent x hx := by
    refine ⟨h.parent x hx, ?_⟩
    rintro rfl
    rw [show files x = none from hempty x.2] at hx
    cases hx

theorem Flat.writeFile (h : t.Flat dirs files) {x : Place} (hx : x.1 ∈ dirs) (content : Bytes) :
    t.writeFile x.path content = .ok (t.put x.path (.file content)) := by
  rw [FileTree.writeFile, h.find_file, h.block?_of_mem hx]
  cases files x <;> rfl

end FileTree

namespace FileStep

open FileTree

variable {t : FileTree} {dirs : Set String} {files : Place → Option Bytes}

theorem exists_makeDirectories (h : t.Flat dirs files) (d : String) :
    ∃ t', apply t (.makeDirectories [d]) = .ok t' ∧ t'.Flat (insert d dirs) files := by
  have htop : (t.put [] .directory).Flat dirs files := by
    refine ⟨?_, ?_, ?_, fun x => ?_, h.parent⟩
    · simp [getElem?_put]
    · simpa [getElem?_put] using h.directory
    · simpa [getElem?_put] using h.noDirectory
    · simpa [getElem?_put, Place.path] using h.file x
  refine ⟨_, ?_, htop.put_directory d⟩
  have hfree : ∀ content, (t.put [] .directory).nodes[[d]]? ≠ some (.file content) := by
    intro content
    by_cases hd : d ∈ dirs
    · simp [htop.directory d hd]
    · simp [htop.noDirectory d hd]
  simp only [apply, FileTree.makeDirectories, makeFrom, h.top, List.nil_append]
  rfl

theorem exists_write (h : t.Flat dirs files) {x : Place} (hx : x.1 ∈ dirs) (content : Bytes) :
    ∃ t', apply t (.write x.path content) = .ok t' ∧
      t'.Flat dirs (Function.update files x (some content)) :=
  ⟨_, by rw [apply, h.writeFile hx]; rfl, h.put_file hx content⟩

theorem exists_rename (h : t.Flat dirs files) {x y : Place} {content : Bytes}
    (hx : files x = some content) (hy : y.1 ∈ dirs) :
    ∃ t', apply t (.rename x.path y.path) = .ok t' ∧
      t'.Flat dirs (Function.update (Function.update files y (some content)) x none) := by
  refine ⟨_, ?_, (h.put_file hy content).erase_file x⟩
  rw [apply, FileTree.rename, h.readFile, hx]
  dsimp only
  rw [h.writeFile hy]
  rfl

theorem exists_remove (h : t.Flat dirs files) (x : Place) :
    ∃ t', apply t (.remove x.path) = .ok t' ∧ t'.Flat dirs (Function.update files x none) := by
  cases hx : files x with
  | none =>
    refine ⟨t, ?_, ?_⟩
    · rw [apply, h.isPresent, hx]
      rfl
    · rwa [← hx, Function.update_eq_self]
  | some content =>
    refine ⟨_, ?_, h.erase_file x⟩
    rw [apply, h.isPresent, hx, removeFile, h.readFile, hx]
    rfl

/-- Only an empty directory is removed. -/
theorem exists_removeIfEmpty (h : t.Flat dirs files) {d : String} (hd : d ∈ dirs) :
    ∃ t', apply t (.removeIfEmpty [d]) = .ok t' ∧
      t'.Flat {e ∈ dirs | e = d → ∃ name, (files (d, name)).isSome} files := by
  have hfind := h.find_directory hd
  obtain ⟨l, hl⟩ : ∃ l, t.children [d] = .ok l := by
    rw [children, hfind]
    exact ⟨_, rfl⟩
  have hmem : ∀ name n, (name, n) ∈ l ↔ (files (d, name)).map .file = some n := by
    intro name n
    rw [(children_spec hl).1, ← h.file]
    rfl
  cases l with
  | nil =>
    have hempty : ∀ name, files (d, name) = none := by
      intro name
      rw [Option.eq_none_iff_forall_ne_some]
      intro content hcontent
      have hnone := (hmem name (.file content)).2 (by rw [hcontent]; rfl)
      cases hnone
    refine ⟨t.erase [d], ?_, ?_⟩
    · simp only [apply, hl, removeDirectory]
      rfl
    · have hdirs : {e ∈ dirs | e = d → ∃ name, (files (d, name)).isSome} = dirs \ {d} := by
        ext e
        simp [hempty]
      rw [hdirs]
      exact h.erase_directory hempty
  | cons first rest =>
    refine ⟨t, ?_, ?_⟩
    · simp only [apply, hl]
      rfl
    · have hsome : ∃ name, (files (d, name)).isSome := by
        have hfirst := (hmem first.1 first.2).1 (by simp)
        obtain ⟨content, hcontent, _⟩ := Option.map_eq_some_iff.1 hfirst
        exact ⟨first.1, by rw [hcontent]; rfl⟩
      have hdirs : {e ∈ dirs | e = d → ∃ name, (files (d, name)).isSome} = dirs := by
        ext e
        simp only [Set.mem_ofPred_eq, and_iff_left_iff_imp]
        exact fun _ _ => hsome
      rwa [hdirs]

theorem run_perform {s : FileStep} {t' : FileTree} (h : apply t s = .ok t') :
    perform s t = .ok () t' := by
  rw [perform, h]

end FileStep

end Tidemark
