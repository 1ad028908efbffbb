import Mathlib
import OnePass.Proofs.Command.Places
import OnePass.Proofs.Command.Settings

/-!
# What commands do to files

Files are written one after the other, all in one folder and each under a name of its own, so each is found under its path in the
end and every other place is as before (`writeAll_frame`, `writeAll_done`). Only a compiled program is written, as the files that
were asked for (`perform_changes_files`). Without an output path these are named after the source, which they spare unless it is
itself named as a compiled program (`perform_spares_source`).
-/

namespace OnePass

open FileTree

variable {t t' : FileTree} {p : Program} {binary content path source : Bytes} {o : Options} {s : Settings}

/-! ## Writing files -/

theorem writeAll_of_ok (h : t.write path content = .ok t') (files : List (Bytes × Bytes)) :
    writeAll t ((path, content) :: files) = writeAll t' files := by
  rw [writeAll, h]

theorem writeAll_of_error {e : FileError} (h : t.write path content = .error e) (files : List (Bytes × Bytes)) :
    writeAll t ((path, content) :: files) = (some (.unwritable path e), t) := by
  rw [writeAll, h]

/-- The failure is that a file cannot be written. -/
def CommandFailure.IsUnwritable (failure : CommandFailure) : Prop := ∃ path e, failure = .unwritable path e

theorem isUnwritable_of_writeAll {files : List (Bytes × Bytes)} {failure : CommandFailure}
    (h : (writeAll t files).1 = some failure) :
    failure.IsUnwritable := by
  induction files generalizing t with
  | nil => cases h
  | cons file files ih =>
    cases hwrite : t.write file.1 file.2 with
    | ok t' =>
      rw [writeAll_of_ok hwrite] at h
      exact ih h
    | error e =>
      rw [writeAll_of_error hwrite] at h
      cases h
      exact ⟨_, _, rfl⟩

/-- The paths of files in a folder. -/
def inFolder (folder : Bytes) (files : List (Bytes × Bytes)) : List (Bytes × Bytes) := files.map fun file =>
    (folder ++ file.1, file.2)

theorem inFolder_cons (folder : Bytes) (file : Bytes × Bytes) (files : List (Bytes × Bytes)) :
    inFolder folder (file :: files) = (folder ++ file.1, file.2) :: inFolder folder files := rfl

section Folder

variable {t : FileTree} {folder : Bytes} {directory : List Bytes} {files : List (Bytes × Bytes)}

/-- Writing files in a folder leaves the folder open and every place but theirs as it is, also where it stops at a failure. -/
theorem writeAll_frame (h : t.Opens folder directory) (hnames : ∀ file ∈ files, Path.IsName file.1) :
    (writeAll t (inFolder folder files)).2.Opens folder directory ∧
      ∀ place, (∀ file ∈ files, place ≠ directory ++ [file.1]) →
        (writeAll t (inFolder folder files)).2.get? place = t.get? place := by
  induction files generalizing t with
  | nil => exact ⟨h, fun _ _ => rfl⟩
  | cons file files ih =>
    obtain ⟨hname, hnames⟩ := List.forall_mem_cons.1 hnames
    cases hwrite : t.write (folder ++ file.1) file.2 with
    | error e =>
      rw [inFolder_cons, writeAll_of_error hwrite]
      exact ⟨h, fun _ _ => rfl⟩
    | ok t' =>
      obtain ⟨-, -, hfree, rfl⟩ := (h.write_ok_iff hname).1 hwrite
      obtain ⟨hopens, hkept⟩ := ih (h.set hfree file.2) hnames
      rw [inFolder_cons, writeAll_of_ok hwrite]
      refine ⟨hopens, fun place hplace => ?_⟩
      obtain ⟨hne, hplace⟩ := List.forall_mem_cons.1 hplace
      rw [hkept place hplace, get?_set, if_neg hne]

/-- The first file that is written is found under its path, whatever becomes of the others. -/
theorem writeAll_first {first : Bytes × Bytes} (h : t.Opens folder directory)
    (hnames : ∀ file ∈ first :: files, Path.IsName file.1)
    (hdistinct : (first :: files).Pairwise fun file other => other.1 ≠ file.1)
    (hwrite : t.write (folder ++ first.1) first.2 = .ok t') :
    (writeAll t (inFolder folder (first :: files))).2.read (folder ++ first.1) = .ok first.2 ∧
      (writeAll t (inFolder folder (first :: files))).2.target (folder ++ first.1) = .ok (directory ++ [first.1]) := by
  obtain ⟨hname, hnames⟩ := List.forall_mem_cons.1 hnames
  obtain ⟨hother, -⟩ := List.pairwise_cons.1 hdistinct
  obtain ⟨hhere, habove, hfree, rfl⟩ := (h.write_ok_iff hname).1 hwrite
  rw [inFolder_cons, writeAll_of_ok hwrite]
  obtain ⟨hopens, hkept⟩ := writeAll_frame (h.set hfree first.2) hnames
  have hfile : (writeAll (t.set (directory ++ [first.1]) (.file first.2))
    (inFolder folder files)).2.get? (directory ++ [first.1]) =
      some (.file first.2) := by
    rw [hkept, get?_set, if_pos rfl]
    exact fun other hmem heq => hother other hmem (List.singleton_inj.1 (List.append_cancel_left heq)).symm
  have hplace : Path.descend directory first.1 = directory ++ [first.1] := by rw [Path.descend, if_neg hhere, if_neg habove]
  refine ⟨hopens.read hname (hplace ▸ hfile), ?_⟩
  rw [hopens.target hname, hfile, if_neg (by simp [hhere, habove])]

end Folder

section Artifacts

variable {o : Options} {s : Settings} {source output : Bytes} {p : Program} {binary : Bytes}

theorem mem_artifacts_iff {file : Bytes × Bytes} :
    file ∈ artifacts o s source output p binary ↔ file = (output, binary) ∨
      (o.debugInfo ∨ s.debugInfo) ∧ file = (output ++ Bytes.ofString ".dbg", (Sidecar.ofProgram p source).write) ∨
      (o.listing ∨ s.listing) ∧ file = (output ++ Bytes.ofString ".lst", Listing.ofProgram p) := by
  simp [artifacts, sidecarPath, listingPath]

theorem artifacts_append (folder name : Bytes) :
    artifacts o s source (folder ++ name) p binary = inFolder folder (artifacts o s source name p binary) := by
  simp only [artifacts, sidecarPath, listingPath, inFolder, List.append_assoc, List.cons_append, List.map_cons, List.map_append]
  congr 2 <;> split <;> rfl

/-- The files of a program have names if the program has one. -/
theorem isName_of_mem_artifacts (h : Path.IsName output) : ∀ file ∈ artifacts o s source output p binary, Path.IsName file.1 := by
  intro file hfile
  rcases mem_artifacts_iff.1 hfile with rfl | ⟨-, rfl⟩ | ⟨-, rfl⟩
  · exact h
  · exact h.append (by decide) (by decide)
  · exact h.append (by decide) (by decide)

/-- The files of a program have different names. -/
theorem pairwise_artifacts : (artifacts o s source output p binary).Pairwise fun file other => other.1 ≠ file.1 := by
  have hdbg : Bytes.ofString ".dbg" ≠ [] := by decide
  have hlst : Bytes.ofString ".lst" ≠ [] := by decide
  have hne : Bytes.ofString ".lst" ≠ Bytes.ofString ".dbg" := by decide
  unfold artifacts
  split <;> split <;> simp [sidecarPath, listingPath, hdbg, hlst, hne]

end Artifacts

/-! ## Compiling -/

/-- The settings and the source of an invocation are found, and the source compiles to a program that has a binary. -/
structure Invocation.Compiles (i : Invocation) (t : FileTree) (source : Bytes) (settings : Settings)
    (p : Program) (binary : Bytes) :
    Prop where
  settings : i.settings t = .ok settings
  compiled : ∃ text, t.read source = .ok text ∧ compile text = .ok p
  encoded : Binary.write p = .ok binary

/-- Compiling a source succeeds exactly if it is read, compiled and encoded. -/
theorem compileSource_ok_iff :
    compileSource t source = .ok (p, binary) ↔ (∃ text, t.read source = .ok text ∧ compile text = .ok p) ∧
      Binary.write p = .ok binary := by
  constructor
  · intro h
    obtain ⟨text, hread, h⟩ := Binary.bind_ok_iff.1 h
    cases hcompile : compile text with
    | error e =>
      rw [hcompile] at h
      cases e <;> cases h
    | ok q =>
      rw [hcompile] at h
      obtain ⟨bytes, hwrite, h⟩ := Binary.bind_ok_iff.1 h
      cases h
      exact ⟨⟨text, mapError_ok_iff.1 hread, hcompile⟩, mapError_ok_iff.1 hwrite⟩
  · rintro ⟨⟨text, hread, hcompile⟩, hwrite⟩
    refine Binary.bind_ok_iff.2 ⟨text, mapError_ok_iff.2 hread, ?_⟩
    rw [hcompile]
    exact Binary.bind_ok_iff.2 ⟨binary, mapError_ok_iff.2 hwrite, rfl⟩

section Invocation

variable {i : Invocation} {source output : Bytes}

/-- An invocation that compiles writes the files of the program, and only that can fail; one that does not compile fails before. -/
theorem Invocation.perform_compile (htask : i.task = .compile source output) (t : FileTree) (input : Bytes) (budget : Nat) :
    (∃ settings p binary, i.Compiles t source settings p binary ∧
      (i.perform t input budget).tree = (writeAll t (artifacts i.options settings source output p binary)).2 ∧
      ((i.perform t input budget).result = .done ∧ (writeAll t (artifacts i.options settings source output p binary)).1 = none ∨
        ∃ failure, (i.perform t input budget).result = .failed failure ∧ failure.IsUnwritable)) ∨
    (∀ settings p binary, ¬i.Compiles t source settings p binary) ∧ (i.perform t input budget).tree = t ∧
      ∃ failure, (i.perform t input budget).result = .failed failure := by
  unfold Invocation.perform
  cases hsettings : i.settings t with
  | error e =>
    refine .inr ⟨fun settings p binary h => ?_, rfl, _, rfl⟩
    cases hsettings.symm.trans h.settings
  | ok settings =>
    rw [htask]
    dsimp only
    unfold performCompile
    cases hsource : compileSource t source with
    | error failure =>
      refine .inr ⟨fun settings p binary h => ?_, rfl, failure, rfl⟩
      cases hsource.symm.trans (compileSource_ok_iff.2 ⟨h.compiled, h.encoded⟩)
    | ok compiled =>
      obtain ⟨p, binary⟩ := compiled
      obtain ⟨hcompiled, hencoded⟩ := compileSource_ok_iff.1 hsource
      refine .inl ⟨settings, p, binary, ⟨hsettings, hcompiled, hencoded⟩, ?_⟩
      dsimp only
      cases hfiles : writeAll t (artifacts i.options settings source output p binary) with
      | mk stop tree => cases stop with
        | none => exact ⟨rfl, .inl ⟨rfl, rfl⟩⟩
        | some failure => exact ⟨rfl, .inr ⟨failure, rfl, isUnwritable_of_writeAll (congrArg Prod.fst hfiles)⟩⟩

theorem Invocation.Compiles.unique {settings settings' : Settings} {p' : Program} {binary' : Bytes}
    (h : i.Compiles t source settings p binary) (h' : i.Compiles t source settings' p' binary') :
    settings' = settings ∧ p' = p ∧ binary' = binary := by
  obtain ⟨text, hread, hcompile⟩ := h.compiled
  obtain ⟨text', hread', hcompile'⟩ := h'.compiled
  cases hread.symm.trans hread'
  cases hcompile.symm.trans hcompile'
  cases h.settings.symm.trans h'.settings
  cases h.encoded.symm.trans h'.encoded
  exact ⟨rfl, rfl, rfl⟩

end Invocation

/-! ## Changed files -/

/-- Files named after the stem of a name are not named so themselves, unless the name already has the extension of a binary:
another extension is replaced, and a sidecar or a listing has one more dot behind the stem. -/
theorem ne_of_mem_artifacts {stem ext : Bytes} (hdot : Path.dot ∉ ext.tail) (hext : ext ≠ binaryExtension) :
    ∀ file ∈ artifacts o s source (stem ++ binaryExtension) p binary, file.1 ≠ stem ++ ext := by
  intro file hfile heq
  rcases mem_artifacts_iff.1 hfile with rfl | ⟨-, rfl⟩ | ⟨-, rfl⟩
  · exact hext (List.append_cancel_left heq).symm
  · rw [List.append_assoc] at heq
    exact hdot (List.append_cancel_left heq ▸ by decide)
  · rw [List.append_assoc] at heq
    exact hdot (List.append_cancel_left heq ▸ by decide)

section Source

variable {t : FileTree} {path text : Bytes} {o : Options} {s : Settings} {source : Bytes} {p : Program} {binary : Bytes}

/-- A source that is read has a folder, a stem and an extension, and the default output has the same folder and stem. -/
theorem exists_stem_of_read (h : t.read path = .ok text) :
    ∃ folder stem ext directory, path = folder ++ (stem ++ ext) ∧ Path.extension path = ext ∧ Path.dot ∉ ext.tail ∧
      Path.replaceExtension path binaryExtension = folder ++ (stem ++ binaryExtension) ∧ t.Opens folder directory ∧
      Path.IsName (stem ++ ext) ∧ Path.IsName (stem ++ binaryExtension) ∧
      t.get? (Path.descend directory (stem ++ ext)) = some (.file text) := by
  obtain ⟨folder, name, directory, rfl, hopens, hname, hfile⟩ := exists_opens_of_read h
  obtain ⟨stem, hsplit, hdot, hreplace⟩ := Path.exists_stem hopens.isFolder hname.noSlash
  have hbinary : Path.IsName (stem ++ binaryExtension) := by
    have hslash := hname.noSlash
    have hnul := hname.noNul
    rw [hsplit, List.mem_append, not_or] at hslash hnul
    have hext : binaryExtension ≠ [] ∧ Path.slash ∉ binaryExtension ∧ 0 ∉ binaryExtension := by decide
    exact ⟨by simp [hext.1], by simp [hslash.1, hext.2.1], by simp [hnul.1, hext.2.2]⟩
  refine ⟨folder, stem, Path.extension (folder ++ name), directory, ?_, rfl, hdot, hreplace _, hopens, ?_, hbinary, ?_⟩
  · rw [← hsplit]
  · rwa [← hsplit]
  · rwa [← hsplit]

/-- The files of a program named after a source leave the source as it is, unless it is named as a binary. -/
theorem read_writeAll_of_extension_ne (h : t.read path = .ok text) (hext : Path.extension path ≠ binaryExtension) :
    (writeAll t (artifacts o s source (Path.replaceExtension path binaryExtension) p binary)).2.read path = .ok text := by
  obtain ⟨folder, stem, ext, directory, hpath, rfl, hdot, hreplace, hopens, hname, hbinary, hfile⟩ := exists_stem_of_read h
  have hnames : ∀ file ∈ artifacts o s source (stem ++ binaryExtension) p binary, Path.IsName file.1 :=
    isName_of_mem_artifacts hbinary
  obtain ⟨hafter, hkept⟩ := writeAll_frame hopens hnames
  have hread := hafter.read hname ((hkept _ fun file hmem heq => ?_).trans hfile)
  · rwa [hreplace, artifacts_append, hpath]
  · exact Path.descend_ne (ne_of_mem_artifacts hdot hext file hmem) directory heq

/-- The binary takes the place of a source that is named as a binary. -/
theorem read_writeAll_of_extension_eq (h : t.read path = .ok text) (hext : Path.extension path = binaryExtension) :
    (writeAll t (artifacts o s source (Path.replaceExtension path binaryExtension) p binary)).2.read path = .ok binary := by
  obtain ⟨folder, stem, ext, directory, hpath, hsame, -, hreplace, hopens, -, hname, hfile⟩ := exists_stem_of_read h
  obtain rfl := hsame.symm.trans hext
  have hlong : 3 ≤ (stem ++ binaryExtension).length := by
    have hsize : binaryExtension.length = 3 := by decide
    rw [List.length_append]
    omega
  have hhere : stem ++ binaryExtension ≠ Path.here := fun heq => absurd (heq ▸ hlong) (by decide)
  have habove : stem ++ binaryExtension ≠ Path.above := fun heq => absurd (heq ▸ hlong) (by decide)
  -- the source is a file, so nothing keeps the binary from its place
  have hfree : t.get? (directory ++ [stem ++ binaryExtension]) ≠ some .directory := by
    rw [Path.descend, if_neg hhere, if_neg habove] at hfile
    simp [hfile]
  have hwrite : t.write (folder ++ (stem ++ binaryExtension)) binary =
    .ok (t.set (directory ++ [stem ++ binaryExtension]) (.file binary)) :=
    (hopens.write_ok_iff hname).2 ⟨hhere, habove, hfree, rfl⟩
  rw [hreplace, artifacts_append, hpath]
  exact (writeAll_first hopens (isName_of_mem_artifacts hname) pairwise_artifacts hwrite).1

end Source

/-- Compiling to the default output leaves the source as it is, unless the source is named as a binary and compiles: then the
binary takes its place. -/
theorem perform_spares_source {arguments : List Bytes} {options : Options} {path : Bytes}
    (h : readOptions {} arguments = .ok (options, [Bytes.ofString "compile", path])) (t : FileTree)
    (input : Bytes) (budget : Nat) :
    ∃ i, Invocation.ofArguments arguments = .ok i ∧
      ((∀ settings p binary, i.Compiles t path settings p binary → Path.extension path ≠ Bytes.ofString ".o0") →
        (perform arguments t input budget).tree.read path = t.read path) ∧
      ∀ settings p binary, i.Compiles t path settings p binary → Path.extension path = Bytes.ofString ".o0" →
        (perform arguments t input budget).tree.read path = .ok binary := by
  obtain ⟨i, hasked, htask⟩ : ∃ i, Invocation.ofArguments arguments = .ok i ∧
      i.task = .compile path (Path.replaceExtension path binaryExtension) := by
    rw [Invocation.ofArguments, h]
    exact ⟨⟨options, _⟩, rfl, rfl⟩
  refine ⟨i, hasked, ?_⟩
  rw [perform, hasked]
  dsimp only
  rcases i.perform_compile htask t input budget with ⟨settings, p, binary, hcompiles, htree, -⟩ | ⟨hnone, htree, -⟩
  · obtain ⟨text, hread, -⟩ := hcompiles.compiled
    rw [htree]
    constructor
    · intro hext
      rw [read_writeAll_of_extension_ne hread (hext settings p binary hcompiles), hread]
    · intro settings' p' binary' hcompiles' hext
      obtain ⟨-, -, rfl⟩ := hcompiles.unique hcompiles'
      exact read_writeAll_of_extension_eq hread hext
  · rw [htree]
    exact ⟨fun _ => rfl, fun settings p binary hcompiles => absurd hcompiles (hnone settings p binary)⟩

/-- A source that is named as a binary. -/
def namedAsBinary : FileTree where
  entries := [([Bytes.ofString "a.o0"], .file (Bytes.ofString "fn main() -> void \x7b\x7d"))]

/-- The source is lost. -/
theorem perform_spares_source_namedAsBinary :
    readOptions {} (["compile", "a.o0"].map Bytes.ofString) = .ok ({}, ["compile", "a.o0"].map Bytes.ofString) ∧
      namedAsBinary.read (Bytes.ofString "a.o0") = .ok (Bytes.ofString "fn main() -> void \x7b\x7d") ∧
      ∃ binary, (perform (["compile", "a.o0"].map Bytes.ofString) namedAsBinary [] 0).tree.read
        (Bytes.ofString "a.o0") = .ok binary ∧
        binary ≠ Bytes.ofString "fn main() -> void \x7b\x7d" := by
  have hoptions : readOptions {} (["compile", "a.o0"].map Bytes.ofString) =
    .ok ({}, ["compile", "a.o0"].map Bytes.ofString) := rfl
  have hcompiled : (compileSource namedAsBinary (Bytes.ofString "a.o0")).toOption.any
      (fun compiled => compiled.2 ≠ Bytes.ofString "fn main() -> void \x7b\x7d") = true := by decide +kernel
  refine ⟨hoptions, rfl, ?_⟩
  obtain ⟨i, hasked, -, hlost⟩ := perform_spares_source hoptions namedAsBinary [] 0
  obtain rfl : Invocation.mk {} (.compile (Bytes.ofString "a.o0") (Bytes.ofString "a.o0")) = i := Except.ok.inj hasked
  cases hsource : compileSource namedAsBinary (Bytes.ofString "a.o0") with
  | error e => simp [hsource, Except.toOption] at hcompiled
  | ok compiled =>
    obtain ⟨p, binary⟩ := compiled
    obtain ⟨hp, hbinary⟩ := compileSource_ok_iff.1 hsource
    have hread := hlost {} p binary ⟨rfl, hp, hbinary⟩ (by decide)
    rw [hsource] at hcompiled
    exact ⟨binary, hread, of_decide_eq_true hcompiled⟩

end OnePass
