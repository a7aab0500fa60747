import Scopewright.Proofs.Text.Class
import Scopewright.Proofs.Text.Split
import Scopewright.Uri

/-! # Which documents are syntax tests

Two rules take a document for a syntax test.  Its dialect (`dialectOf`) is told by the name in the
path of its URI, whatever the scheme, and by the first line when the name tells nothing.  Requests
about assertions ask for its file name (`fileNameOf`): a saved file is a syntax test by its name
alone, any other document by its first line alone.

A file name ends in the name that the path ends in, unless the path has no name at all; then the
host is the name (`Uri.isTestFileName_filePath`).  So the rules differ for a saved file with a header
whose name tells nothing, and for any other document whose name tells one thing and whose first line
another (`isTest_iff_dialectOf`). -/

namespace Scopewright

namespace PathName

theorem components_append_slash (s t : Text) :
    components (s ++ CodeUnit.ofBasic '/' :: t) = components s ++ components t := by
  rw [components, Text.splitOn_append_cons, List.filter_append]
  rfl

theorem components_slash (t : Text) : components (CodeUnit.ofBasic '/' :: t) = components t :=
  components_append_slash [] t

end PathName

namespace Dialect

open PathName (baseName components)

/-- The name at the end of a path is a test name, or there is none and the one in front of the path
is. -/
theorem isTestFileName_append_slash (s t : Text) :
    isTestFileName (s ++ CodeUnit.ofBasic '/' :: t) =
      if components t = [] then isTestFileName s else isTestFileName t := by
  simp only [isTestFileName, baseName, PathName.components_append_slash]
  split
  · rename_i hnone
    rw [hnone, List.append_nil]
  · rename_i hsome
    rw [List.getLast?_append_of_ne_nil _ hsome]

theorem isTestFileName_slash (t : Text) :
    isTestFileName (CodeUnit.ofBasic '/' :: t) = isTestFileName t := by
  rw [isTestFileName, isTestFileName, baseName, baseName, PathName.components_slash]

/-- No test name begins with a drive. -/
theorem isTestFileName_colon {drive : CodeUnit} (hdrive : drive ≠ CodeUnit.ofBasic '/')
    {rest : Text} (hrest : CodeUnit.ofBasic '/' ∉ rest) :
    isTestFileName (drive :: CodeUnit.ofBasic ':' :: rest) = false := by
  have hcolon : CodeUnit.ofBasic '/' ≠ CodeUnit.ofBasic ':' := by decide
  have hmem : CodeUnit.ofBasic '/' ∉ drive :: CodeUnit.ofBasic ':' :: rest := by
    simp only [List.mem_cons, not_or]
    exact ⟨hdrive.symm, hcolon, hrest⟩
  have hbase : baseName (drive :: CodeUnit.ofBasic ':' :: rest) =
      drive :: CodeUnit.ofBasic ':' :: rest := by
    rw [baseName, components, Text.splitOn_of_notMem hmem]
    rfl
  have hmark : testFileMark = CodeUnit.ofBasic 's' :: CodeUnit.ofBasic 'y' ::
      Text.ofString "ntax_test_" := rfl
  have hy : (CodeUnit.ofBasic 'y' == CodeUnit.ofBasic ':') = false := by decide
  rw [isTestFileName, hbase, hmark, List.isPrefixOf_cons_cons, List.isPrefixOf_cons_cons, hy,
    Bool.false_and, Bool.and_false]

/-- Which letter a drive has does not matter. -/
theorem isTestFileName_drive {c d : CodeUnit} (hc : c ≠ CodeUnit.ofBasic '/')
    (hd : d ≠ CodeUnit.ofBasic '/') (rest : Text) :
    isTestFileName (c :: CodeUnit.ofBasic ':' :: rest) =
      isTestFileName (d :: CodeUnit.ofBasic ':' :: rest) := by
  by_cases hmem : CodeUnit.ofBasic '/' ∈ rest
  · obtain ⟨s, t, rfl, hs⟩ := List.eq_append_cons_of_mem hmem
    have hsplit (e : CodeUnit) : e :: CodeUnit.ofBasic ':' :: (s ++ CodeUnit.ofBasic '/' :: t) =
        (e :: CodeUnit.ofBasic ':' :: s) ++ CodeUnit.ofBasic '/' :: t := rfl
    rw [hsplit, hsplit, isTestFileName_append_slash, isTestFileName_append_slash,
      isTestFileName_colon hc hs, isTestFileName_colon hd hs]
  · rw [isTestFileName_colon hc hmem, isTestFileName_colon hd hmem]

theorem ofFileName?_eq_syntaxTest_iff {name : Text} :
    ofFileName? name = some .syntaxTest ↔ isTestFileName name = true := by
  rw [ofFileName?]
  split
  · rename_i htest
    exact ⟨fun _ => htest, fun _ => rfl⟩
  · rename_i htest
    refine ⟨fun hsome => ?_, fun h => absurd h htest⟩
    obtain ⟨before, behind, hsplit, -⟩ := List.lookup_eq_some_iff.mp hsome
    have hnone : ∀ e ∈ extensions, e.2 ≠ .syntaxTest := by decide
    have hmem : (PathName.extensionKey name, Dialect.syntaxTest) ∈ extensions := by
      rw [hsplit]
      exact List.mem_append_right _ List.mem_cons_self
    exact absurd rfl (hnone _ hmem)

/-- Without a name there is nothing that tells a dialect. -/
theorem ofFileName?_of_components {path : Text} (h : components path = []) :
    ofFileName? path = none := by
  have hbase : baseName path = [] := by rw [baseName, h]; rfl
  have hextension : PathName.extension path = [] := by
    unfold PathName.extension
    rw [hbase]
    rfl
  rw [ofFileName?, isTestFileName, hbase, PathName.extensionKey, hextension]
  rfl

end Dialect

/-- The lower-case form of an ASCII letter is one unit, and no slash. -/
theorem Text.toLower_letter {c : CodeUnit} (h : c.isLetter = true) :
    ∃ d, Text.toLower [c] = [d] ∧ d ≠ CodeUnit.ofBasic '/' := by
  have hrange : c.toNat < 128 ∧ c.toNat ≠ 47 ∧ c.toNat ≠ 15 := by
    have hword : c.isWord = true := by rw [CodeUnit.isWord, h, Bool.true_or, Bool.true_or]
    rw [CodeUnit.isWord_iff] at hword
    omega
  let n := if 65 ≤ c.toNat ∧ c.toNat ≤ 90 then c.toNat + 32 else c.toNat
  have hn : n < 0x10000 ∧ n ≠ 47 := by
    simp only [n]
    split <;> omega
  have hlower : LowerCase.ofCodePoints [] [c.toNat] = [n] := by
    have hsigma : c.toNat ≠ 0x3A3 := by omega
    rw [LowerCase.ofCodePoints, if_neg hsigma, LowerCase.ofCodePoint, if_pos hrange.1]
    simp only [n]
    split <;> rfl
  refine ⟨CodeUnit.ofNat n, ?_, fun hslash => hn.2 ?_⟩
  · rw [Text.toLower, LowerCase.codePoints, hlower, List.flatMap_singleton, CodeUnit.ofCodePoint,
      if_pos hn.1]
  · have := congrArg CodeUnit.toNat hslash
    rwa [CodeUnit.toNat_ofNat hn.1] at this

namespace Uri

open Dialect (isTestFileName ofFileName?)

/-- The path of a saved file begins with a slash. -/
theorem exists_path_of_file {t : Text} {u : Uri} (h : parse t = .ok u)
    (hfile : u.scheme = fileScheme) : ∃ path, u.path = CodeUnit.ofBasic '/' :: path := by
  have hroot (path : Text) : ∃ rest, rootPath fileScheme path = CodeUnit.ofBasic '/' :: rest := by
    have hrooted : rootedSchemes.contains fileScheme = true := by decide
    rw [rootPath, hrooted, Bool.true_and]
    split
    · exact ⟨path, rfl⟩
    · rename_i hhead
      have hslash : path.head? = some (CodeUnit.ofBasic '/') := by simpa using hhead
      exact List.head?_eq_some_iff.mp hslash
  unfold parse at h
  simp only at h
  split at h
  · cases h
  · obtain rfl := Except.ok.inj h
    simp only at hfile ⊢
    rw [hfile]
    exact hroot _

/-- The path has no name, and the host has the name of a syntax test. -/
def HostNamesTest (u : Uri) : Prop :=
  PathName.components u.path = [] ∧ 1 < u.path.length ∧ isTestFileName u.authority = true

/-- Without a host in front, a file name is the path but for the letter of a drive. -/
theorem isTestFileName_filePath_local {u : Uri} {path : Text}
    (hpath : u.path = CodeUnit.ofBasic '/' :: path)
    (hhost : u.authority = [] ∨ ¬ 1 < u.path.length) :
    isTestFileName u.filePath = isTestFileName path := by
  have hcond : (!u.authority.isEmpty && decide (1 < u.path.length)
      && decide (u.scheme = fileScheme)) = false := by
    rcases hhost with hhost | hhost <;> simp [hhost]
  rw [filePath, hcond, if_neg Bool.false_ne_true, hpath]
  split
  · rename_i slash drive colon rest heq
    obtain ⟨rfl, rfl⟩ := List.cons.inj heq
    split
    · rename_i hdrive
      obtain ⟨d, hd, hslash⟩ := Text.toLower_letter hdrive.2.1
      have hletter : drive ≠ CodeUnit.ofBasic '/' := by
        rintro rfl
        exact absurd hdrive.2.1 (by decide)
      rw [hd, hdrive.2.2]
      exact Dialect.isTestFileName_drive hslash hletter rest
    · exact Dialect.isTestFileName_slash _
  · exact Dialect.isTestFileName_slash _

/-- A host is told as a part of the path in front of the others. -/
theorem isTestFileName_filePath_host {u : Uri} {path : Text} (hfile : u.scheme = fileScheme)
    (hpath : u.path = CodeUnit.ofBasic '/' :: path) (hhost : u.authority ≠ [])
    (hlength : 1 < u.path.length) : isTestFileName u.filePath =
      if PathName.components path = [] then isTestFileName u.authority
      else isTestFileName path := by
  have hcond : (!u.authority.isEmpty && decide (1 < u.path.length)
      && decide (u.scheme = fileScheme)) = true := by
    simp [hhost, hlength, hfile]
  have hname : isTestFileName (authorityMark ++ u.authority) = isTestFileName u.authority :=
    (Dialect.isTestFileName_slash _).trans (Dialect.isTestFileName_slash _)
  rw [filePath, hcond, if_pos rfl, hpath, Dialect.isTestFileName_append_slash, hname]

/-- A saved file has a test name when its path ends in one, or has no name and the host is one. -/
theorem isTestFileName_filePath {u : Uri} {path : Text} (hfile : u.scheme = fileScheme)
    (hpath : u.path = CodeUnit.ofBasic '/' :: path) :
    isTestFileName u.filePath = true ↔ isTestFileName u.path = true ∨ u.HostNamesTest := by
  have htest : isTestFileName u.path = isTestFileName path := by
    rw [hpath, Dialect.isTestFileName_slash]
  have hcomponents : PathName.components u.path = PathName.components path := by
    rw [hpath, PathName.components_slash]
  rw [HostNamesTest, htest, hcomponents]
  by_cases hhost : u.authority = [] ∨ ¬ 1 < u.path.length
  · rw [isTestFileName_filePath_local hpath hhost]
    refine ⟨.inl, ?_⟩
    rintro (h | ⟨-, hlength, h⟩)
    · exact h
    · rcases hhost with hnil | hshort
      · rw [hnil] at h
        cases h
      · exact absurd hlength hshort
  · rw [not_or, not_not] at hhost
    rw [isTestFileName_filePath_host hfile hpath hhost.1 hhost.2]
    split
    · rename_i hnone
      have hunnamed : isTestFileName path = false := Bool.eq_false_iff.mpr fun htrue => by
        have hdialect := Dialect.ofFileName?_eq_syntaxTest_iff.mpr htrue
        rw [Dialect.ofFileName?_of_components hnone] at hdialect
        cases hdialect
      simp [hunnamed, hnone, hhost.2]
    · rename_i hsome
      simp [hsome]

end Uri

/-! ### The two rules -/

open Dialect (ofFileName?)
open SyntaxTest (header? isTest)

/-- Diagnostics and completions take a document for a syntax test. -/
def TestByDialect (languageId uri text : Text) : Prop :=
  dialectOf languageId uri text = .ok (some .syntaxTest)

/-- Requests about assertions take a document for a syntax test. -/
def TestByFileName (uri text : Text) : Prop :=
  (fileNameOf uri).map (isTest · text) = .ok true

/-- A saved file without a telling name has a header exactly when its host has a test name; in any
other document the name, if it tells anything, tells what the first line does. -/
def Uri.Agrees (u : Uri) (text : Text) : Prop :=
  (u.scheme = Uri.fileScheme → ofFileName? u.path = none →
    ((header? text).isSome ↔ u.HostNamesTest)) ∧
  (u.scheme ≠ Uri.fileScheme → ∀ d, ofFileName? u.path = some d →
    (d = .syntaxTest ↔ (header? text).isSome))

theorem testByDialect_iff {languageId uri text : Text} {u : Uri}
    (hlanguage : Dialect.ofName? languageId = none) (hu : Uri.parse uri = .ok u) :
    TestByDialect languageId uri text ↔ Dialect.isTestFileName u.path = true ∨
      (ofFileName? u.path = none ∧ (header? text).isSome) := by
  rw [← Dialect.ofFileName?_eq_syntaxTest_iff, TestByDialect, dialectOf, hlanguage, hu]
  simp only [Except.map, Except.ok.injEq]
  cases ofFileName? u.path with
  | some d => simp
  | none =>
      cases hheader : (header? text).isSome <;> simp [isTest, hheader]

theorem testByFileName_iff {uri text : Text} {u : Uri} (hu : Uri.parse uri = .ok u) :
    TestByFileName uri text ↔ if u.scheme = Uri.fileScheme then
      Dialect.isTestFileName u.filePath = true else (header? text).isSome := by
  rw [TestByFileName, fileNameOf, hu]
  simp only [Except.map, Except.ok.injEq, Uri.fileName?]
  split <;> exact Iff.rfl

/-- **When the two rules agree.**  For a language that is no dialect, diagnostics and completions
take a document for a syntax test exactly when the requests about assertions do, if its URI has been
refused, or if the document is a saved file whose name tells something or whose header goes with its
host, or if it is another document whose name tells nothing or what the first line does. -/
theorem isTest_iff_dialectOf {languageId : Text} (hlanguage : Dialect.ofName? languageId = none)
    (uri text : Text) :
    (TestByDialect languageId uri text ↔ TestByFileName uri text) ↔
      ∀ u, Uri.parse uri = .ok u → u.Agrees text := by
  cases hu : Uri.parse uri with
  | error f =>
      have hdialect : ¬ TestByDialect languageId uri text := by
        rw [TestByDialect, dialectOf, hlanguage, hu]
        exact nofun
      have hname : ¬ TestByFileName uri text := by
        rw [TestByFileName, fileNameOf, hu]
        exact nofun
      exact iff_of_true (iff_of_false hdialect hname) nofun
  | ok u =>
      have honly : (∀ v, Except.ok (ε := Uri.Fault) u = .ok v → v.Agrees text) ↔ u.Agrees text :=
        ⟨fun h => h u rfl, fun h v hv => Except.ok.inj hv ▸ h⟩
      rw [honly, testByDialect_iff hlanguage hu, testByFileName_iff hu, Uri.Agrees]
      by_cases hfile : u.scheme = Uri.fileScheme
      · obtain ⟨path, hpath⟩ := Uri.exists_path_of_file hu hfile
        have hunnamed : u.HostNamesTest → ofFileName? u.path = none :=
          fun h => Dialect.ofFileName?_of_components h.1
        rw [if_pos hfile, Uri.isTestFileName_filePath hfile hpath,
          ← Dialect.ofFileName?_eq_syntaxTest_iff]
        cases htells : ofFileName? u.path with
        | none => simp [hfile]
        | some d =>
            have hhost : ¬ u.HostNamesTest := fun h => by
              rw [htells] at hunnamed
              cases hunnamed h
            simp [hfile, hhost]
      · rw [if_neg hfile, ← Dialect.ofFileName?_eq_syntaxTest_iff]
        cases htells : ofFileName? u.path with
        | none => simp [hfile]
        | some d => simp [hfile]

/-- The first line of a syntax test. -/
def usualHeader : Text := "# SYNTAX TEST \"s\""

/-- The rules agree about a buffer that has not been saved. -/
theorem isTest_iff_dialectOf_untitled :
    Dialect.ofName? "plaintext" = none ∧
      TestByDialect "plaintext" "untitled:Untitled-1" usualHeader ∧
      ((TestByDialect "plaintext" "untitled:Untitled-1" usualHeader ↔
          TestByFileName "untitled:Untitled-1" usualHeader) ↔
        ∀ u, Uri.parse "untitled:Untitled-1" = .ok u → u.Agrees usualHeader) := by
  refine ⟨by decide, ?_, isTest_iff_dialectOf (by decide) _ _⟩
  unfold TestByDialect
  decide +kernel

/-- A saved file with a header is a syntax test for diagnostics only, whatever its name, and so is a
buffer without a header if it has the name of a syntax test. -/
theorem testByDialect_not_testByFileName :
    Dialect.ofName? "plaintext" = none ∧
      (TestByDialect "plaintext" "file:///a.txt" usualHeader ∧
        ¬ TestByFileName "file:///a.txt" usualHeader) ∧
      (TestByDialect "plaintext" "untitled:syntax_test_a" [] ∧
        ¬ TestByFileName "untitled:syntax_test_a" []) := by
  unfold TestByDialect TestByFileName
  decide +kernel

end Scopewright
