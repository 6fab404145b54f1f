import Mathlib.Tactic
import Bimatrix.Directory

/-! # Files that have been written

Writing a file changes no directory, so the path of the file leads where it led before, and what was
written is read there.
-/
namespace Bimatrix.Directory

variable {d d' : Directory} {path : String} {content : ByteArray}

def withFile (d : Directory) (file : List String) (content : ByteArray) : Directory :=
  ⟨(file, some content) :: d.places.filter fun p => decide (p.1 ≠ file)⟩

theorem find?_withFile (d : Directory) {file : List String} (h : file ≠ [])
    (content : ByteArray) : (d.withFile file content).find? file = some (some content) := by
  rw [find?, if_neg h, withFile, List.find?_cons_of_pos (by simp)]
  rfl

theorem find?_withFile_of_ne (d : Directory) {file base : List String} (h : base ≠ file)
    (content : ByteArray) : (d.withFile file content).find? base = d.find? base := by
  have hkept : (d.places.filter fun p => decide (p.1 ≠ file)).find? (fun p => decide (p.1 = base)) =
      d.places.find? fun p => decide (p.1 = base) := by
    rw [List.find?_filter]
    congr 1
    funext p
    by_cases hp : p.1 = base
    · simp [hp, h]
    · simp [hp]
  rw [find?, find?, withFile, List.find?_cons_of_neg (by simpa using h.symm), hkept]

theorem isDirectory_withFile {file : List String} (hne : file ≠ [])
    (hfile : d.isDirectory file = false) (content : ByteArray) (base : List String) :
    (d.withFile file content).isDirectory base = d.isDirectory base := by
  by_cases hbase : base = file
  · subst base
    rw [hfile, isDirectory, find?_withFile d hne]
  · rw [isDirectory, isDirectory, find?_withFile_of_ne d hbase]

/-- A path leads to the same place, whatever a file holds. -/
theorem enter_withFile {file : List String} (hne : file ≠ [])
    (hfile : d.isDirectory file = false) (content : ByteArray) :
    (d.withFile file content).enter = d.enter := by
  funext base name
  rw [enter, enter, isDirectory_withFile hne hfile]

theorem enter_of_isNewName {base : List String} {name : String} (h : d.isDirectory base = true)
    (hname : isNewName name = true) : d.enter base name = some (base ++ [name]) := by
  simp only [isNewName, Bool.and_eq_true, bne_iff_ne, ne_eq] at hname
  obtain ⟨⟨⟨⟨hempty, hpoint⟩, hpoints⟩, -⟩, -⟩ := hname
  simp [enter, h, hempty, hpoint, hpoints]

/-- What a write does: the path without its last name leads to a directory, where the name is a
file's from then on. -/
theorem exists_of_write? (h : d.write? path content = some d') :
    ∃ names name place, names? path = some (names ++ [name]) ∧
      names.foldlM d.enter [] = some place ∧ d.isDirectory place = true ∧
      isNewName name = true ∧ d.isDirectory (place ++ [name]) = false ∧
      d' = d.withFile (place ++ [name]) content := by
  simp only [write?, bind, Option.bind_eq_some_iff] at h
  obtain ⟨names, hnames, name, hlast, place, hplace, hwrite⟩ := h
  split_ifs at hwrite with hallowed
  simp only [Bool.and_eq_true, Bool.not_eq_true'] at hallowed
  obtain ⟨⟨hdirectory, hname⟩, hfile⟩ := hallowed
  have hsplit : names.dropLast ++ [name] = names :=
    List.dropLast_append_getLast? name hlast
  exact ⟨names.dropLast, name, place, by rw [hsplit, hnames], hplace, hdirectory, hname, hfile,
    (Option.some.inj hwrite).symm⟩

/-- What was written is read back. -/
theorem read?_of_write? (h : d.write? path content = some d') : d'.read? path = some content := by
  obtain ⟨names, name, place, hnames, hplace, hdirectory, hname, hfile, rfl⟩ := exists_of_write? h
  have hne : place ++ [name] ≠ [] := by simp
  have hfold : (names ++ [name]).foldlM d.enter [] = some (place ++ [name]) := by
    rw [List.foldlM_append, hplace, Option.bind_eq_bind, Option.bind_some, List.foldlM_cons,
      enter_of_isNewName hdirectory hname]
    rfl
  simp only [read?, hnames, enter_withFile hne hfile, Option.bind_eq_bind, Option.bind_some, hfold,
    find?_withFile d hne, Option.join_some]

end Bimatrix.Directory
