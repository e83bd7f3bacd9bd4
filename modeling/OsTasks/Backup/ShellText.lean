import OsTasks.Backup.Commands
import OsTasks.Lib.ShellPlain
import OsTasks.Lib.Scan
import OsTasks.Lib.Words

/-! What the shell makes of the texts that `file_created` and `file_modified` hand to `system`. -/
namespace OsTasks.Backup
open OsTasks.Lib

/-- `sprintf` to an array of this size. A longer text has no result. -/
def sprintf (size : ℕ) (text : List Byte) : Option (List Byte) :=
  if text.length < size then some text else none

section Handlers
variable (cfg : Config)

/-- `fscanf` of the file that `find` wrote: the first line up to a space, or what `filepath` held
where there is none. -/
def fscanfPath (held : List Byte) : Option Path → Option (List Byte)
  | none => some held
  | some p => sprintf pathMax ((relText cfg.cwd p).takeWhile fun b => !isSpace b)

/-- `file_created`: the texts for `system`, where `src` is the path that `find` printed first. -/
def fileCreated (filename : Name) (src : Option Path) : Option (List (List Byte)) := do
  let filepath ← sprintf pathMax (dumpPath cfg findFile)
  let find ← sprintf pathMax (ascii "find -name " ++ filename ++ ascii " > " ++ filepath)
  let filepath ← fscanfPath cfg filepath src
  let mkdir ← sprintf pathMax (ascii "mkdir " ++ dumpPath cfg filename)
  let cp ← sprintf pathMax (ascii "cp " ++ filepath ++ ascii " " ++ dumpPath cfg filename)
  some [find, mkdir, cp]

/-- `file_modified` -/
def fileModified (filename : Name) (src : Option Path) (tm : Tm) : Option (List (List Byte)) := do
  let filepath ← sprintf pathMax (dumpPath cfg findFile)
  let find ← sprintf pathMax (ascii "find -name " ++ filename ++ ascii " > " ++ filepath)
  let filepath ← fscanfPath cfg filepath src
  let diffFilename ← sprintf diffFilenameSize (diffFilename filename tm)
  let diff ← sprintf pathMax (ascii "diff " ++ filepath ++ ascii " " ++ dumpPath cfg filename ++
    slash :: filename ++ ascii " > " ++ dumpPath cfg filename ++ slash :: diffFilename)
  let cp ← sprintf pathMax (ascii "cp " ++ filepath ++ ascii " " ++ dumpPath cfg filename)
  some [find, diff, cp]

/-- The commands that the texts are meant for. -/
def intendedFind (n : Name) : Sh.Command :=
  ⟨[ascii "find", ascii "-name", n], [⟨[], ascii ">", dumpPath cfg findFile⟩]⟩

def intendedMkdir (n : Name) : Sh.Command := ⟨[ascii "mkdir", dumpPath cfg n], []⟩

def intendedCp (path : List Byte) (n : Name) : Sh.Command :=
  ⟨[ascii "cp", path, dumpPath cfg n], []⟩

def intendedDiff (path : List Byte) (n : Name) (tm : Tm) : Sh.Command :=
  ⟨[ascii "diff", path, dumpPath cfg n ++ slash :: n],
    [⟨[], ascii ">", dumpPath cfg n ++ slash :: diffFilename n tm⟩]⟩

/-- Both handlers put their texts together, the shell reads each as the command it is meant for,
and the pattern of `find` matches no other name. -/
structure ActsOnFile (lists : List Byte → Byte → Bool) (n : FileName) (src : Option Path)
    (tm : Tm) : Prop where
  created : (fileCreated cfg n.bytes src).map (List.map Sh.command) =
    some [some (intendedFind cfg n.bytes), some (intendedMkdir cfg n.bytes),
      some (intendedCp cfg (filepath cfg src) n.bytes)]
  modified : (fileModified cfg n.bytes src tm).map (List.map Sh.command) =
    some [some (intendedFind cfg n.bytes), some (intendedDiff cfg (filepath cfg src) n.bytes tm),
      some (intendedCp cfg (filepath cfg src) n.bytes)]
  pattern : ∀ m : FileName, fnmatch lists (elements n.bytes) m.bytes = true ↔ m = n

/-- No byte has a meaning of its own for the shell, in no component of the path. -/
structure PlainBytes (s : List Byte) : Prop where
  ordinary : ∀ b ∈ s, Sh.ordinary b = true
  literal : Sh.literalPath s = true

/-- A word that starts with it is no comment and names no home directory. -/
def PlainStart (s : List Byte) : Prop := s.head? ≠ some 0x23 ∧ s.head? ≠ some 0x7e

structure PlainNames (n : FileName) (src : Option Path) (tm : Tm) : Prop where
  name : PlainBytes n.bytes
  name_start : PlainStart n.bytes
  dump : PlainBytes cfg.dumpText
  dump_start : PlainStart cfg.dumpText
  path : ∀ p, src = some p →
    PlainBytes (relText cfg.cwd p) ∧ ∀ b ∈ relText cfg.cwd p, isSpace b = false
  diff_fits : n.bytes.length + (diffFilename [] tm).length < diffFilenameSize
  texts_fit : (filepath cfg src).length + 2 * cfg.dumpText.length + 4 * n.bytes.length +
    (diffFilename [] tm).length + 13 < pathMax

end Handlers

section Words
variable {s u : List Byte}

theorem isArgument_iff : Sh.IsArgument s ↔ s ≠ [] ∧ PlainBytes s ∧ PlainStart s := by
  constructor
  · intro h
    exact ⟨h.word.ne_nil, ⟨h.word.ordinary, h.literal⟩, h.word.no_comment, h.no_home⟩
  · rintro ⟨hne, hbytes, hcomment, hhome⟩
    exact ⟨⟨hne, hbytes.ordinary, hcomment⟩, hhome, hbytes.literal⟩

theorem plainBytes_append_slash : PlainBytes (s ++ slash :: u) ↔ PlainBytes s ∧ PlainBytes u := by
  have hliteral : Sh.literalPath (s ++ slash :: u) = true ↔
      Sh.literalPath s = true ∧ Sh.literalPath u = true := by
    unfold Sh.literalPath slash
    rw [List.splitOn_append_cons_self, List.all_append, Bool.and_eq_true]
  have hordinary : (∀ b ∈ s ++ slash :: u, Sh.ordinary b = true) ↔
      (∀ b ∈ s, Sh.ordinary b = true) ∧ ∀ b ∈ u, Sh.ordinary b = true := by
    have hslash : Sh.ordinary slash = true := by decide
    rw [List.forall_mem_append, List.forall_mem_cons, and_iff_right hslash]
  constructor
  · intro h
    obtain ⟨hs, hu⟩ := hordinary.mp h.ordinary
    obtain ⟨hs', hu'⟩ := hliteral.mp h.literal
    exact ⟨⟨hs, hs'⟩, hu, hu'⟩
  · rintro ⟨hs, hu⟩
    exact ⟨hordinary.mpr ⟨hs.ordinary, hu.ordinary⟩, hliteral.mpr ⟨hs.literal, hu.literal⟩⟩

theorem plainStart_append_slash : PlainStart (s ++ slash :: u) ↔ PlainStart s := by
  cases s with
  | nil =>
    have hslash : some slash ≠ some 0x23 ∧ some slash ≠ some 0x7e := by decide
    have hnone : (none : Option Byte) ≠ some 0x23 ∧ (none : Option Byte) ≠ some 0x7e := by decide
    exact iff_of_true hslash hnone
  | cons b s => rfl

theorem isArgument_append_slash : Sh.IsArgument (s ++ slash :: u) ↔
    PlainBytes s ∧ PlainStart s ∧ PlainBytes u := by
  have hne : s ++ slash :: u ≠ [] := by simp
  rw [isArgument_iff, plainBytes_append_slash, plainStart_append_slash, and_iff_right hne,
    and_assoc, and_comm (a := PlainBytes u)]

end Words

section Texts
variable {cfg : Config} {n : Name} {path : List Byte} {src : Option Path} {tm : Tm}
  {texts : List (List Byte)}

theorem intendedFind_text : (intendedFind cfg n).text = findCommand cfg n := by
  simp [intendedFind, Sh.Command.text, Sh.Redirect.text, findCommand, List.intercalate, ascii]

theorem intendedMkdir_text : (intendedMkdir cfg n).text = mkdirCommand cfg n := by
  simp [intendedMkdir, Sh.Command.text, mkdirCommand, List.intercalate, ascii]

theorem intendedCp_text :
    (intendedCp cfg path n).text = ascii "cp " ++ path ++ ascii " " ++ dumpPath cfg n := by
  simp [intendedCp, Sh.Command.text, List.intercalate, ascii]

theorem intendedDiff_text : (intendedDiff cfg path n tm).text =
    ascii "diff " ++ path ++ ascii " " ++ dumpPath cfg n ++ slash :: n ++ ascii " > " ++
      dumpPath cfg n ++ slash :: diffFilename n tm := by
  simp [intendedDiff, Sh.Command.text, Sh.Redirect.text, List.intercalate, ascii]

theorem exists_sprintf {size : ℕ} {text : List Byte} {P : List Byte → Prop} :
    (∃ t, sprintf size text = some t ∧ P t) ↔ text.length < size ∧ P text := by
  unfold sprintf
  split_ifs with h
  · simp [h]
  · simp [h]

theorem fileCreated_eq_some_iff : fileCreated cfg n src = some texts ↔
    (dumpPath cfg findFile).length < pathMax ∧ (findCommand cfg n).length < pathMax ∧
      ∃ path, fscanfPath cfg (dumpPath cfg findFile) src = some path ∧
        (mkdirCommand cfg n).length < pathMax ∧ (intendedCp cfg path n).text.length < pathMax ∧
        [(intendedFind cfg n).text, (intendedMkdir cfg n).text, (intendedCp cfg path n).text] =
          texts := by
  simp only [intendedFind_text, intendedMkdir_text, intendedCp_text]
  simp only [fileCreated, Option.bind_eq_bind, Option.bind_eq_some_iff, exists_sprintf,
    Option.some.injEq]
  exact Iff.rfl

theorem fileModified_eq_some_iff : fileModified cfg n src tm = some texts ↔
    (dumpPath cfg findFile).length < pathMax ∧ (findCommand cfg n).length < pathMax ∧
      ∃ path, fscanfPath cfg (dumpPath cfg findFile) src = some path ∧
        (diffFilename n tm).length < diffFilenameSize ∧
        (intendedDiff cfg path n tm).text.length < pathMax ∧
        (intendedCp cfg path n).text.length < pathMax ∧
        [(intendedFind cfg n).text, (intendedDiff cfg path n tm).text,
          (intendedCp cfg path n).text] = texts := by
  simp only [intendedFind_text, intendedDiff_text, intendedCp_text]
  simp only [fileModified, Option.bind_eq_bind, Option.bind_eq_some_iff, exists_sprintf,
    Option.some.injEq]
  exact Iff.rfl

theorem fscanfPath_isPrefix (h : fscanfPath cfg (dumpPath cfg findFile) src = some path) :
    path <+: filepath cfg src := by
  cases src with
  | none =>
    obtain rfl := Option.some.inj h
    exact List.prefix_rfl
  | some p =>
    obtain ⟨_, hpath⟩ := Option.ite_none_right_eq_some.mp h
    obtain rfl := Option.some.inj hpath
    exact List.takeWhile_prefix _

/-- The whole path is read where it has no space and fits. -/
theorem fscanfPath_whole : fscanfPath cfg (dumpPath cfg findFile) src = some (filepath cfg src) ↔
    ∀ p, src = some p →
      (relText cfg.cwd p).length < pathMax ∧ ∀ b ∈ relText cfg.cwd p, isSpace b = false := by
  cases src with
  | none => exact iff_of_true rfl (fun p h => nomatch h)
  | some p =>
    have hwhole : (relText cfg.cwd p).takeWhile (fun b => !isSpace b) = relText cfg.cwd p ↔
        ∀ b ∈ relText cfg.cwd p, isSpace b = false := by
      rw [List.takeWhile_eq_self_iff]
      simp
    have hsprintf : fscanfPath cfg (dumpPath cfg findFile) (some p) =
        sprintf pathMax ((relText cfg.cwd p).takeWhile fun b => !isSpace b) := rfl
    have hread : (∀ q, some p = some q →
        (relText cfg.cwd q).length < pathMax ∧ ∀ b ∈ relText cfg.cwd q, isSpace b = false) ↔
        (relText cfg.cwd p).length < pathMax ∧ ∀ b ∈ relText cfg.cwd p, isSpace b = false := by
      simp
    rw [hread, ← hwhole, hsprintf, sprintf, Option.ite_none_right_eq_some, Option.some.injEq]
    constructor
    · rintro ⟨hlen, htake⟩
      rw [htake] at hlen
      exact ⟨hlen, htake⟩
    · rintro ⟨hlen, htake⟩
      rw [htake]
      exact ⟨hlen, rfl⟩

theorem path_of_command_cp {whole : List Byte} (hpath : path <+: whole)
    (h : Sh.command (intendedCp cfg path n).text = some (intendedCp cfg whole n)) :
    (intendedCp cfg whole n).Plain ∧ path = whole := by
  obtain ⟨rest, rfl⟩ := hpath
  obtain ⟨hle, hplain⟩ := Sh.solid_of_command h
  rw [Sh.Command.solid_text] at hle hplain
  simp only [Sh.Command.solid, intendedCp, List.map_cons, List.map_nil, List.sum_cons,
    List.sum_nil, Sh.solid_append] at hle hplain
  have hplain := hplain (by omega)
  have hrest : Sh.solid rest = 0 := by omega
  have hargument : Sh.IsArgument (path ++ rest) := hplain.args _ (by simp)
  have hordinary := (List.forall_mem_append.mp hargument.word.ordinary).2
  rw [Sh.solid_of_ordinary hordinary, List.length_eq_zero_iff] at hrest
  rw [hrest, List.append_nil] at hplain ⊢
  exact ⟨hplain, rfl⟩

end Texts

section Plain
variable {cfg : Config} {n : Name} {path : List Byte} {tm : Tm}

theorem isArgument_of_check {s : List Byte} (hbytes : s.all Sh.ordinary = true)
    (hliteral : Sh.literalPath s = true) (hstart : s.head? ∉ [none, some 0x23, some 0x7e]) :
    Sh.IsArgument s := by
  simp only [List.mem_cons, List.not_mem_nil, or_false, not_or] at hstart
  obtain ⟨hne, hcomment, hhome⟩ := hstart
  refine isArgument_iff.mpr ⟨fun h => hne (by rw [h]; rfl), ⟨List.all_eq_true.mp hbytes, hliteral⟩,
    hcomment, hhome⟩

theorem ordinary_diffFilename (hn : ∀ b ∈ n, Sh.ordinary b = true) :
    ∀ b ∈ diffFilename n tm, Sh.ordinary b = true := by
  have hdecimal : ∀ k, ∀ b ∈ decimal k, Sh.ordinary b = true := fun k b hb =>
    (Sh.ordinary_of_isDigit (isDigit_of_mem_decimal hb)).1
  have hpadded : ∀ w k, ∀ b ∈ padded w k, Sh.ordinary b = true := fun w k b hb =>
    (Sh.ordinary_of_isDigit (isDigit_of_mem_padded hb)).1
  have hsigns : ([ascii "_", ascii "-", ascii ".diff"].all fun s => s.all Sh.ordinary) = true := by
    decide
  simp only [List.all_cons, List.all_nil, Bool.and_eq_true, List.all_eq_true] at hsigns
  obtain ⟨hunderscore, hdash, hdiff, _⟩ := hsigns
  unfold diffFilename
  simp only [List.forall_mem_append, and_assoc]
  exact ⟨hn, hunderscore, hdecimal _, hdash, hpadded _ _, hdash, hpadded _ _, hunderscore,
    hpadded _ _, hdash, hpadded _ _, hdash, hpadded _ _, hdiff⟩

theorem length_diffFilename (n : Name) (tm : Tm) :
    (diffFilename n tm).length = n.length + (diffFilename [] tm).length := by
  simp only [diffFilename, List.length_append, List.length_nil]
  omega

theorem length_suffix (tm : Tm) : 11 ≤ (diffFilename [] tm).length := by
  simp only [diffFilename, List.length_append]
  have hsigns : (ascii "_").length = 1 ∧ (ascii "-").length = 1 ∧ (ascii ".diff").length = 5 := by
    decide
  omega

theorem length_intendedDiff (path : List Byte) : (intendedDiff cfg path n tm).text.length =
    path.length + 2 * cfg.dumpText.length + 4 * n.length + (diffFilename [] tm).length + 13 := by
  have hsigns : (ascii "diff ").length = 5 ∧ (ascii " ").length = 1 ∧ (ascii " > ").length = 3 := by
    decide
  have hname := length_diffFilename n tm
  rw [intendedDiff_text]
  simp only [dumpPath, List.length_append, List.length_cons]
  omega

end Plain

section ActsOnFile
variable {cfg : Config} {lists : List Byte → Byte → Bool} {n : FileName} {src : Option Path}
  {tm : Tm}

theorem literalPath_fileName (n : FileName) : Sh.literalPath n.bytes = allLiteral n.bytes := by
  unfold Sh.literalPath
  rw [List.splitOn_eq_singleton n.no_slash, List.all_cons, List.all_nil, Bool.and_true]

/-- `find` takes the name for itself alone exactly when the shell sees no pattern in it. -/
theorem pattern_iff (hn : ∀ b ∈ n.bytes, Sh.ordinary b = true) :
    (∀ m : FileName, fnmatch lists (elements n.bytes) m.bytes = true ↔ m = n) ↔
      Sh.literalPath n.bytes = true := by
  have hback : 0x5c ∉ n.bytes := fun h => absurd (hn 0x5c h) (by decide)
  rw [matchesOnly_iff lists hback, literalPath_fileName]

theorem redirect_plain {s u : List Byte} (hs : PlainBytes s) (hstart : PlainStart s)
    (hu : ∀ b ∈ u, Sh.ordinary b = true) :
    (Sh.Redirect.mk [] (ascii ">") (s ++ slash :: u)).Plain := by
  have hstart : PlainStart (s ++ slash :: u) := plainStart_append_slash.mpr hstart
  have hop : ascii ">" ∈ Sh.redirections := by decide
  have hslash : Sh.ordinary slash = true := by decide
  have hbytes : ∀ b ∈ s ++ slash :: u, Sh.ordinary b = true :=
    List.forall_mem_append.mpr ⟨hs.ordinary, List.forall_mem_cons.mpr ⟨hslash, hu⟩⟩
  exact ⟨fun b hb => absurd hb List.not_mem_nil, hop, ⟨by simp, hbytes, hstart.1⟩, hstart.2⟩

theorem plainNames_of_actsOnFile (h : ActsOnFile cfg lists n src tm) : PlainNames cfg n src tm := by
  obtain ⟨created, hcreated, hcommands⟩ := Option.map_eq_some_iff.mp h.created
  obtain ⟨_, _, path, hpath, _, _, rfl⟩ := fileCreated_eq_some_iff.mp hcreated
  simp only [List.map_cons, List.map_nil, List.cons.injEq] at hcommands
  obtain ⟨hfind, hmkdir, hcp, _⟩ := hcommands
  obtain ⟨hplain, rfl⟩ := path_of_command_cp (fscanfPath_isPrefix hpath) hcp
  obtain ⟨modified, hmodified, _⟩ := Option.map_eq_some_iff.mp h.modified
  obtain ⟨_, _, path, hpath', hdiffFile, hdiff, _, _⟩ := fileModified_eq_some_iff.mp hmodified
  obtain rfl := Option.some.inj (hpath.symm.trans hpath')
  have hname : Sh.IsArgument n.bytes :=
    (Sh.command_text_iff.mp hfind).args _ (by simp [intendedFind])
  have hdump : Sh.IsArgument (dumpPath cfg n.bytes) :=
    (Sh.command_text_iff.mp hmkdir).args _ (by simp [intendedMkdir])
  have hsrc : Sh.IsArgument (filepath cfg src) := hplain.args _ (by simp [intendedCp])
  have hnameBytes : PlainBytes n.bytes :=
    ⟨hname.word.ordinary, (pattern_iff hname.word.ordinary).mp h.pattern⟩
  have hnameStart : PlainStart n.bytes := ⟨hname.word.no_comment, hname.no_home⟩
  obtain ⟨hdump, hdumpStart, _⟩ := isArgument_append_slash.mp hdump
  obtain ⟨_, hsrc, _⟩ := isArgument_iff.mp hsrc
  rw [length_diffFilename] at hdiffFile
  rw [length_intendedDiff] at hdiff
  refine ⟨hnameBytes, hnameStart, hdump, hdumpStart, ?_, hdiffFile, hdiff⟩
  rintro p rfl
  exact ⟨hsrc, (fscanfPath_whole.mp hpath p rfl).2⟩

theorem PlainNames.isArgument_filepath (h : PlainNames cfg n src tm) :
    Sh.IsArgument (filepath cfg src) := by
  cases src with
  | none =>
    have hfindFile := isArgument_of_check (s := findFile) (by decide) (by decide) (by decide)
    exact isArgument_append_slash.mpr
      ⟨h.dump, h.dump_start, hfindFile.word.ordinary, hfindFile.literal⟩
  | some p =>
    have hstart : some 0x2e ≠ some (0x23 : Byte) ∧ some 0x2e ≠ some (0x7e : Byte) := by decide
    exact isArgument_iff.mpr ⟨List.cons_ne_nil _ _, (h.path p rfl).1, hstart⟩

theorem PlainNames.isArgument_dumpPath (h : PlainNames cfg n src tm) :
    Sh.IsArgument (dumpPath cfg n.bytes) :=
  isArgument_append_slash.mpr ⟨h.dump, h.dump_start, h.name⟩

theorem PlainNames.find (h : PlainNames cfg n src tm) :
    (intendedFind cfg n.bytes).Plain where
  named := rfl
  args := by
    have hname : Sh.IsArgument n.bytes := isArgument_iff.mpr ⟨n.ne_nil, h.name, h.name_start⟩
    simp only [intendedFind, List.forall_mem_cons]
    exact ⟨isArgument_of_check (by decide) (by decide) (by decide),
      isArgument_of_check (by decide) (by decide) (by decide), hname, fun a ha => nomatch ha⟩
  redirects := by
    have hfindFile : findFile.all Sh.ordinary = true := by decide
    exact List.forall_mem_singleton.mpr
      (redirect_plain h.dump h.dump_start (List.all_eq_true.mp hfindFile))

theorem PlainNames.mkdir (h : PlainNames cfg n src tm) :
    (intendedMkdir cfg n.bytes).Plain where
  named := rfl
  args := by
    simp only [intendedMkdir, List.forall_mem_cons]
    exact ⟨isArgument_of_check (by decide) (by decide) (by decide), h.isArgument_dumpPath,
      fun a ha => nomatch ha⟩
  redirects := fun r hr => nomatch hr

theorem PlainNames.cp (h : PlainNames cfg n src tm) :
    (intendedCp cfg (filepath cfg src) n.bytes).Plain where
  named := rfl
  args := by
    simp only [intendedCp, List.forall_mem_cons]
    exact ⟨isArgument_of_check (by decide) (by decide) (by decide), h.isArgument_filepath,
      h.isArgument_dumpPath, fun a ha => nomatch ha⟩
  redirects := fun r hr => nomatch hr

theorem PlainNames.diff (h : PlainNames cfg n src tm) :
    (intendedDiff cfg (filepath cfg src) n.bytes tm).Plain where
  named := rfl
  args := by
    have hdump : PlainBytes (dumpPath cfg n.bytes) := plainBytes_append_slash.mpr ⟨h.dump, h.name⟩
    have hdumpStart : PlainStart (dumpPath cfg n.bytes) := plainStart_append_slash.mpr h.dump_start
    simp only [intendedDiff, List.forall_mem_cons]
    exact ⟨isArgument_of_check (by decide) (by decide) (by decide), h.isArgument_filepath,
      isArgument_append_slash.mpr ⟨hdump, hdumpStart, h.name⟩, fun a ha => nomatch ha⟩
  redirects := by
    have hdump : PlainBytes (dumpPath cfg n.bytes) := plainBytes_append_slash.mpr ⟨h.dump, h.name⟩
    have hdumpStart : PlainStart (dumpPath cfg n.bytes) := plainStart_append_slash.mpr h.dump_start
    exact List.forall_mem_singleton.mpr
      (redirect_plain hdump hdumpStart (ordinary_diffFilename h.name.ordinary))

/-- The text of `diff` is the longest. -/
theorem PlainNames.fits (h : PlainNames cfg n src tm) :
    (dumpPath cfg findFile).length < pathMax ∧ (findCommand cfg n.bytes).length < pathMax ∧
      (filepath cfg src).length < pathMax ∧ (mkdirCommand cfg n.bytes).length < pathMax ∧
      (intendedCp cfg (filepath cfg src) n.bytes).text.length < pathMax := by
  have hdiff := h.texts_fit
  have hsuffix := length_suffix tm
  have hfind : (ascii "find -name ").length = 11 ∧ (ascii " > ").length = 3 ∧
      findFile.length = 9 := by decide
  have hothers : (ascii "mkdir ").length = 6 ∧ (ascii "cp ").length = 3 ∧
      (ascii " ").length = 1 := by decide
  rw [intendedCp_text]
  simp only [findCommand, mkdirCommand, dumpPath, List.length_append, List.length_cons]
  omega

theorem actsOnFile_of_plainNames (h : PlainNames cfg n src tm) : ActsOnFile cfg lists n src tm := by
  obtain ⟨hheld, hfind, hfilepath, hmkdir, hcp⟩ := h.fits
  have hread : fscanfPath cfg (dumpPath cfg findFile) src = some (filepath cfg src) := by
    apply fscanfPath_whole.mpr
    rintro p rfl
    exact ⟨hfilepath, (h.path p rfl).2⟩
  have hdiffFile : (diffFilename n.bytes tm).length < diffFilenameSize := by
    rw [length_diffFilename]
    exact h.diff_fits
  have hdiff : (intendedDiff cfg (filepath cfg src) n.bytes tm).text.length < pathMax := by
    rw [length_intendedDiff]
    exact h.texts_fit
  have hcreated := fileCreated_eq_some_iff.mpr
    ⟨hheld, hfind, filepath cfg src, hread, hmkdir, hcp, rfl⟩
  have hmodified := fileModified_eq_some_iff.mpr
    ⟨hheld, hfind, filepath cfg src, hread, hdiffFile, hdiff, hcp, rfl⟩
  constructor
  · rw [hcreated, Option.map_some, List.map_cons, List.map_cons, List.map_singleton,
      h.find.command_text, h.mkdir.command_text, h.cp.command_text]
  · rw [hmodified, Option.map_some, List.map_cons, List.map_cons, List.map_singleton,
      h.find.command_text, h.diff.command_text, h.cp.command_text]
  · exact (pattern_iff h.name.ordinary).mpr h.name.literal

/-- The commands are the intended ones if and only if the names are plain and the texts fit. -/
theorem actsOnFile_iff (cfg : Config) (lists : List Byte → Byte → Bool) (n : FileName)
    (src : Option Path) (tm : Tm) : ActsOnFile cfg lists n src tm ↔ PlainNames cfg n src tm :=
  ⟨plainNames_of_actsOnFile, actsOnFile_of_plainNames⟩

theorem mem_special_of_isSpace {b : Byte} (h : isSpace b = true) : b ∈ special := by
  rcases (Bool.or_eq_true _ _).mp h with h | h
  · rw [of_decide_eq_true h]
    decide
  · obtain ⟨hlow, hhigh⟩ := (Bool.and_eq_true _ _).mp h
    have hlow : 9 ≤ b.toNat := UInt8.le_iff_toNat_le.mp (of_decide_eq_true hlow)
    have hhigh : b.toNat ≤ 13 := UInt8.le_iff_toNat_le.mp (of_decide_eq_true hhigh)
    rw [← UInt8.ofNat_toNat (x := b)]
    interval_cases b.toNat <;> decide

theorem plainBytes_of_literal {s : List Byte} (h : literal s = true) (hnul : 0 ∉ s) :
    PlainBytes s ∧ ∀ b ∈ s, isSpace b = false := by
  have hspecial : ∀ b ∈ s, b ∉ special := fun b hb => of_decide_eq_true (List.all_eq_true.mp h b hb)
  have hmeta : (Sh.metacharacters ++ ascii "*?[\\").all (· ∈ 0 :: special) = true := by decide
  have hmeta : ∀ b ∈ Sh.metacharacters ++ ascii "*?[\\", b ∈ 0 :: special := fun b hb =>
    of_decide_eq_true (List.all_eq_true.mp hmeta b hb)
  have hbyte : ∀ b : Byte, b ∉ 0 :: special →
      Sh.ordinary b = true ∧ b ∉ ascii "*?[\\" ∧ isSpace b = false := by
    intro b hb
    refine ⟨decide_eq_true fun hm => hb (hmeta b (List.mem_append_left _ hm)),
      fun hm => hb (hmeta b (List.mem_append_right _ hm)), ?_⟩
    cases hspace : isSpace b with
    | false => rfl
    | true => exact absurd (List.mem_cons_of_mem _ (mem_special_of_isSpace hspace)) hb
  have hs : ∀ b ∈ s, Sh.ordinary b = true ∧ b ∉ ascii "*?[\\" ∧ isSpace b = false := by
    intro b hb
    apply hbyte
    rw [List.mem_cons, not_or]
    exact ⟨fun hz => hnul (hz ▸ hb), hspecial b hb⟩
  refine ⟨⟨fun b hb => (hs b hb).1, ?_⟩, fun b hb => (hs b hb).2.2⟩
  unfold Sh.literalPath
  rw [List.all_eq_true]
  intro piece hpiece
  apply allLiteral_of_plain
  intro b hb
  exact (hs b (mem_of_mem_splitOn hpiece b hb).2).2.1

/-- What the daemon's model takes for plain commands, the shell reads as intended. -/
theorem actsOnFile_of_plain (h : Plain cfg n.bytes src) (hnul : 0 ∉ cfg.dumpText)
    (hpath : 0 ∉ filepath cfg src) (hdiff : (diffFilename n.bytes tm).length < diffFilenameSize)
    (htexts : (diffCommand cfg src n.bytes tm).length < pathMax) :
    ActsOnFile cfg lists n src tm := by
  obtain ⟨hname, hdump, hslash, hfilepath⟩ := h
  obtain ⟨hliteral, hcomment, hhome⟩ := of_decide_eq_true hname
  have hstart : some slash ≠ some 0x23 ∧ some slash ≠ some 0x7e := by decide
  apply actsOnFile_of_plainNames
  refine ⟨(plainBytes_of_literal hliteral n.no_nul).1, ⟨hcomment, hhome⟩,
    (plainBytes_of_literal hdump hnul).1, ?_, ?_, ?_, ?_⟩
  · unfold PlainStart
    rw [hslash]
    exact hstart
  · rintro p rfl
    exact plainBytes_of_literal hfilepath hpath
  · rw [← length_diffFilename]
    exact hdiff
  · have hlen : (intendedDiff cfg (filepath cfg src) n.bytes tm).text.length = _ :=
      length_intendedDiff (filepath cfg src)
    rw [intendedDiff_text] at hlen
    rw [← hlen]
    exact htexts

end ActsOnFile

/-- The tree under "/w" and the dump directory "/d". -/
def sample : Config where
  cwd := [ascii "w"]
  dumpText := ascii "/d"
  dumpDir := [ascii "d"]
  localtime := fun _ => ⟨124, 0, 1, 0, 0, 0⟩
  diff := fun _ _ => []

def nameWithOperator : FileName := ⟨ascii "a;b", by decide, by decide, by decide⟩

/-- For the shell the name ends the command `find` and begins another one. -/
theorem operator_in_name_not_intended :
    Sh.lex (findCommand sample nameWithOperator.bytes) =
        some [.word (Sh.unquoted (ascii "find")), .word (Sh.unquoted (ascii "-name")),
          .word (Sh.unquoted (ascii "a")), .op (ascii ";"), .word (Sh.unquoted (ascii "b")),
          .op (ascii ">"), .word (Sh.unquoted (ascii "/d/find_file"))] ∧
      ¬ ActsOnFile sample (fun _ _ => false) nameWithOperator
        (some [nameWithOperator.bytes, ascii "w"]) (sample.localtime 0) := by
  refine ⟨by decide +kernel, fun h => ?_⟩
  have hnone : Sh.command (findCommand sample nameWithOperator.bytes) = none := by decide +kernel
  obtain ⟨texts, hcreated, hcommands⟩ := Option.map_eq_some_iff.mp h.created
  obtain ⟨_, _, path, _, _, _, rfl⟩ := fileCreated_eq_some_iff.mp hcreated
  have hfind := (List.cons.inj hcommands).1
  rw [intendedFind_text, hnone] at hfind
  cases hfind

end OsTasks.Backup
