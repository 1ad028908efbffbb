import OnePass.FileTree
import OnePass.Proofs.Binary.RoundTrip

/-!
# Places that paths lead to

A path is a folder and a name behind its last slash. In a file tree the folder leads to a directory (`Opens`), and the name to a
place in it: there a file is read (`Opens.find`, `exists_opens_of_read`) and written (`Opens.target`, `exists_opens_of_target`). A
file that is written changes its own place and no other (`get?_set`), and the folders lead where they led before (`Opens.set`).
Extensions belong to the name (`exists_stem`).
-/

namespace OnePass

/-! ## Paths -/

namespace Path

variable {folder name : Bytes}

/-- The text is empty or ends with a slash, so that a name can follow. -/
def IsFolder (folder : Bytes) : Prop := folder = [] ∨ folder.getLast? = some slash

/-- The text can be the name of something in a directory. -/
structure IsName (name : Bytes) : Prop where
  ne_nil : name ≠ []
  noSlash : slash ∉ name
  noNul : 0 ∉ name

theorem IsName.append {suffix : Bytes} (h : IsName name) (hslash : slash ∉ suffix) (hnul : 0 ∉ suffix) :
    IsName (name ++ suffix) where
  ne_nil := by simp [h.ne_nil]
  noSlash := by simp [h.noSlash, hslash]
  noNul := by simp [h.noNul, hnul]

theorem parts_append (hfolder : IsFolder folder) (hname : IsName name) : parts (folder ++ name) = parts folder ++ [name] := by
  have hkeep : [name].filter (fun part => !part.isEmpty) = [name] := by simp [hname.ne_nil]
  rcases hfolder with rfl | hfolder
  · rw [List.nil_append, parts, Bytes.splitOn_of_notMem hname.noSlash, hkeep]
    rfl
  · obtain ⟨front, rfl⟩ := List.getLast?_eq_some_iff.1 hfolder
    rw [List.append_assoc, List.singleton_append, parts, parts, Bytes.splitOn_append, Bytes.splitOn_append,
      Bytes.splitOn_of_notMem hname.noSlash, List.filter_append, List.filter_append, hkeep]
    simp [Bytes.splitOn]

/-- Another name leads elsewhere. -/
theorem descend_ne {other : Bytes} (h : other ≠ name) (directory : List Bytes) :
    descend directory name ≠ directory ++ [other] := by
  intro heq
  have hlength := congrArg List.length heq
  unfold descend at heq hlength
  split at hlength
  · simp at hlength
  · split at hlength
    · simp at hlength
    · simp_all

theorem endsWithSlash_append (folder : Bytes) (hname : IsName name) : endsWithSlash (folder ++ name) = false := by
  rw [endsWithSlash, List.getLast?_append, beq_eq_false_iff_ne]
  cases hlast : name.getLast? with
  | none => exact absurd (List.getLast?_eq_none_iff.1 hlast) hname.ne_nil
  | some last =>
    rintro ⟨rfl⟩
    exact hname.noSlash (List.mem_of_getLast? hlast)

theorem components_append (hfolder : IsFolder folder) (hname : IsName name) :
    components (folder ++ name) = parts folder ++ [name] := by
  rw [components, endsWithSlash_append folder hname, parts_append hfolder hname]
  rfl

/-- Where a path is taken from is told by its folder. -/
theorem isAbsolute_append (hfolder : IsFolder folder) (hslash : slash ∉ name) :
    isAbsolute (folder ++ name) = isAbsolute folder := by
  cases folder with
  | cons c folder => rfl
  | nil =>
    change (name.head? == some slash) = false
    rw [beq_eq_false_iff_ne]
    exact fun hfirst => hslash (List.mem_of_head? hfirst)

/-- The bytes behind the last slash. -/
theorem takeWhile_reverse {separator : UInt8} {front last : Bytes} (hlast : separator ∉ last)
    (hfront : front = [] ∨ front.getLast? = some separator) :
      (front ++ last).reverse.takeWhile (· ≠ separator) = last.reverse := by
  have hkeep : ∀ b ∈ last.reverse, decide (b ≠ separator) = true := by
    intro b hb
    rw [decide_eq_true_eq]
    rintro rfl
    exact hlast (List.mem_reverse.1 hb)
  rw [List.reverse_append, List.takeWhile_append_of_pos hkeep]
  rcases hfront with rfl | hfront
  · simp
  · obtain ⟨rest, rfl⟩ := List.getLast?_eq_some_iff.1 hfront
    simp

/-- The extension is the end of the name, from its last dot on, and all that a new one replaces. -/
theorem exists_stem (hfolder : IsFolder folder) (hslash : slash ∉ name) :
    ∃ stem, name = stem ++ extension (folder ++ name) ∧ dot ∉ (extension (folder ++ name)).tail ∧
      ∀ new, replaceExtension (folder ++ name) new = folder ++ (stem ++ new) := by
  have hstem : ∃ stem, name = stem ++ extension (folder ++ name) ∧ dot ∉ (extension (folder ++ name)).tail := by
    rw [extension, takeWhile_reverse hslash hfolder]
    obtain ⟨front, last, rfl, hlast, hfront⟩ := Bytes.exists_last dot name
    rw [takeWhile_reverse hlast hfront, List.reverse_reverse]
    rcases hfront with rfl | hfront
    · exact ⟨last, by simp [hlast], by simp [hlast]⟩
    · obtain ⟨stem, rfl⟩ := List.getLast?_eq_some_iff.1 hfront
      exact ⟨stem, by simp, by simpa using hlast⟩
  obtain ⟨stem, hsplit, hdot⟩ := hstem
  refine ⟨stem, hsplit, hdot, fun new => ?_⟩
  rw [replaceExtension]
  generalize extension (folder ++ name) = old at hsplit
  rw [hsplit, ← List.append_assoc, List.length_append, Nat.add_sub_cancel, List.take_left, List.append_assoc]

end Path

/-! ## Trees -/

namespace FileTree

variable {t : FileTree}
variable {parts place start : List Bytes} {content path : Bytes}

theorem get?_set (t : FileTree) (place : List Bytes) (entry : Entry) (other : List Bytes) :
    (t.set place entry).get? other = if other = place then some entry else t.get? other := by
  have hlookup : other ≠ place → (t.entries.filter (·.1 ≠ place)).lookup other = t.entries.lookup other := by
    intro hne
    generalize t.entries = entries
    induction entries with
    | nil => rfl
    | cons first entries ih =>
      obtain ⟨key, value⟩ := first
      by_cases hkey : key = place
      · subst hkey
        rw [List.filter_cons_of_neg (by simp), ih, List.lookup_cons, beq_false_of_ne hne]
      · rw [List.filter_cons_of_pos (by simpa using hkey), List.lookup_cons, List.lookup_cons, ih]
  unfold get? set
  by_cases h : other = place
  · subst h
    rw [List.lookup_cons, beq_self_eq_true, if_pos rfl]
  · rw [List.lookup_cons, beq_false_of_ne h, if_neg h]
    dsimp only
    rw [hlookup h]

theorem walk_append (t : FileTree) (place : List Bytes) (parts more : List Bytes) :
    t.walk place (parts ++ more) = t.walk place parts >>= fun place => t.walk place more := by
  induction parts generalizing place with
  | nil => rfl
  | cons part parts ih =>
    rw [List.cons_append, walk, walk]
    split
    · exact ih _
    · rfl
    · rfl

/-- A walk that meets only directories does not meet a file that is written. -/
theorem walk_set (h : t.get? place ≠ some .directory) {last : List Bytes} (hwalk : t.walk start parts = .ok last) :
    (t.set place (.file content)).walk start parts = .ok last := by
  induction parts generalizing start with
  | nil => exact hwalk
  | cons part parts ih =>
    rw [walk] at hwalk
    split at hwalk
    · rename_i hdirectory
      have hne : start ≠ place := by
        rintro rfl
        exact h hdirectory
      rw [walk, get?_set, if_neg hne, hdirectory]
      exact ih hwalk
    · cases hwalk
    · cases hwalk

/-- The folder of a path leads through directories to a directory. -/
structure Opens (t : FileTree) (folder : Bytes) (directory : List Bytes) : Prop where
  isFolder : Path.IsFolder folder
  noNul : 0 ∉ folder
  walk : t.walk (t.origin folder) (Path.parts folder) = .ok directory
  isDirectory : t.get? directory = some .directory

namespace Opens

variable {folder : Bytes} {directory : List Bytes}

/-- A file that is written in no directory's place closes no folder. -/
theorem set (h : t.Opens folder directory) (hplace : t.get? place ≠ some .directory) (content : Bytes) :
    (t.set place (.file content)).Opens folder directory where
  isFolder := h.isFolder
  noNul := h.noNul
  walk := walk_set hplace h.walk
  isDirectory := by
    have hne : directory ≠ place := by
      rintro rfl
      exact hplace h.isDirectory
    rw [get?_set, if_neg hne, h.isDirectory]

variable {name : Bytes}

variable (h : t.Opens folder directory) (hname : Path.IsName name)

include h hname

theorem checkPath : checkPath (folder ++ name) = .ok () := by
  have hnul : (folder ++ name).contains 0 = false := by simp [h.noNul, hname.noNul]
  have hempty : (folder ++ name).isEmpty = false := by simp [hname.ne_nil]
  rw [FileTree.checkPath, hempty, hnul]
  rfl

theorem origin_append : t.origin (folder ++ name) = t.origin folder := by
  rw [origin, origin, Path.isAbsolute_append h.isFolder hname.noSlash]

/-- What a path leads to is what its name leads to in the directory. -/
theorem find :
    t.find (folder ++ name) = match t.get? (Path.descend directory name) with
      | some entry => .ok entry
      | none => .error .missing := by
  rw [FileTree.find, h.checkPath hname, h.origin_append hname, Path.components_append h.isFolder hname, walk_append, h.walk]
  simp only [bind, Except.bind, FileTree.walk, h.isDirectory]
  rfl

/-- A file is written under its name in the directory, unless a directory is there. -/
theorem target :
    t.target (folder ++ name) =
      if name = Path.here ∨ name = Path.above ∨ t.get? (directory ++ [name]) = some .directory then .error .isDirectory
      else .ok (directory ++ [name]) := by
  have hlast : (Path.parts folder ++ [name]).getLast?.getD Path.here = name := by rw [List.getLast?_concat]; rfl
  rw [FileTree.target, h.checkPath hname, h.origin_append hname, Path.parts_append h.isFolder hname]
  simp only [bind, Except.bind, List.dropLast_concat, h.walk, h.isDirectory, hlast, Path.endsWithSlash_append folder hname]
  by_cases hhere : name = Path.here
  · simp [hhere]
    rfl
  by_cases habove : name = Path.above
  · simp [habove]
    rfl
  have hplace : Path.descend directory name = directory ++ [name] := by rw [Path.descend, if_neg hhere, if_neg habove]
  simp only [hhere, habove, hplace, false_or, Bool.false_eq_true]
  split <;> rfl

/-- The file at a place is read under its name. -/
theorem read {content : Bytes}
    (hfile : t.get? (Path.descend directory name) = some (.file content)) : t.read (folder ++ name) = .ok content := by
  rw [FileTree.read, h.find hname, hfile]

/-- A file is written by putting it under its name. -/
theorem write_ok_iff {t' : FileTree} :
    t.write (folder ++ name) content = .ok t' ↔ name ≠ Path.here ∧ name ≠ Path.above ∧
      t.get? (directory ++ [name]) ≠ some .directory ∧
      t' = t.set (directory ++ [name]) (.file content) := by
  rw [write, h.target hname]
  by_cases hbarred : name = Path.here ∨ name = Path.above ∨ t.get? (directory ++ [name]) = some .directory
  · rw [if_pos hbarred]
    constructor
    · exact nofun
    · rintro ⟨hhere, habove, hfree, -⟩
      exact absurd hbarred (by simp [hhere, habove, hfree])
  · rw [if_neg hbarred]
    simp only [not_or] at hbarred
    constructor
    · intro hwrite
      cases hwrite
      exact ⟨hbarred.1, hbarred.2.1, hbarred.2.2, rfl⟩
    · rintro ⟨-, -, -, rfl⟩
      rfl

end Opens

/-! ## Where files are read and written -/

theorem checkPath_ok (h : checkPath path = .ok ()) : path ≠ [] ∧ 0 ∉ path := by
  unfold checkPath at h
  split at h
  · cases h
  · split at h
    · cases h
    · simp_all

theorem walk_concat_ok {part : Bytes} (h : t.walk start (parts ++ [part]) = .ok place) :
    ∃ directory, t.walk start parts = .ok directory ∧ t.get? directory = some .directory ∧ place =
      Path.descend directory part := by
  rw [walk_append] at h
  obtain ⟨directory, hwalk, hlast⟩ := Binary.bind_ok_iff.1 h
  rw [walk] at hlast
  split at hlast
  · rename_i hdirectory
    cases hlast
    exact ⟨directory, hwalk, hdirectory, rfl⟩
  · cases hlast
  · cases hlast

/-- A path that is not empty and ends with no slash has a name. -/
theorem exists_isName (hnul : 0 ∉ path) :
    ∃ folder name, path = folder ++ name ∧ Path.IsFolder folder ∧ 0 ∉ folder ∧ (name = [] ∨ Path.IsName name) := by
  obtain ⟨folder, name, rfl, hslash, hfolder⟩ := Bytes.exists_last Path.slash path
  simp only [List.mem_append, not_or] at hnul
  refine ⟨folder, name, rfl, hfolder, hnul.1, ?_⟩
  by_cases hname : name = []
  · exact .inl hname
  · exact .inr ⟨hname, hslash, hnul.2⟩

/-- A file that is read has a name in a directory. -/
theorem exists_opens_of_read (h : t.read path = .ok content) :
    ∃ folder name directory, path = folder ++ name ∧ t.Opens folder directory ∧ Path.IsName name ∧
      t.get? (Path.descend directory name) = some (.file content) := by
  have hfind : t.find path = .ok (.file content) := by
    unfold read at h
    split at h
    · rename_i found hfound
      cases h
      exact hfound
    · cases h
    · cases h
  obtain ⟨⟨⟩, hcheck, hfind⟩ := Binary.bind_ok_iff.1 hfind
  obtain ⟨hne, hnul⟩ := checkPath_ok hcheck
  obtain ⟨place, hwalk, hplace⟩ := Binary.bind_ok_iff.1 hfind
  have hget : t.get? place = some (.file content) := by
    split at hplace
    · rename_i entry hentry
      cases hplace
      exact hentry
    · cases hplace
  obtain ⟨folder, name, rfl, hfolder, hnul, rfl | hname⟩ := exists_isName hnul
  · -- a path that ends with a slash leads to a directory
    rw [List.append_nil] at hne hwalk
    have hends : Path.endsWithSlash folder = true := beq_iff_eq.2 (hfolder.resolve_left hne)
    rw [Path.components, if_pos hends] at hwalk
    obtain ⟨directory, -, hdirectory, hsame⟩ := walk_concat_ok hwalk
    have hhere : Path.descend directory Path.here = directory := if_pos rfl
    rw [hsame, hhere, hdirectory] at hget
    cases hget
  · rw [Path.components_append hfolder hname, origin, Path.isAbsolute_append hfolder hname.noSlash] at hwalk
    obtain ⟨directory, hopen, hdirectory, rfl⟩ := walk_concat_ok hwalk
    exact ⟨folder, name, directory, rfl, ⟨hfolder, hnul, hopen, hdirectory⟩, hname, hget⟩

end FileTree

end OnePass
