import OsTasks.Backup.Steps

/-! The paths in the dump directory, and what `cp` leaves alone there. -/
namespace OsTasks.Backup
open OsTasks.Lib

variable {cfg : Config} {s t : State}

/-- Where `cp` puts a file with the name `n`. -/
def copyOf (cfg : Config) (fs : Tree) (n : Name) : Path :=
  if fs.get (n :: cfg.dumpDir) = some .dir then n :: n :: cfg.dumpDir else n :: cfg.dumpDir

theorem copyOf_eq_or (cfg : Config) (fs : Tree) (n : Name) :
    copyOf cfg fs n = n :: n :: cfg.dumpDir ∨ copyOf cfg fs n = n :: cfg.dumpDir := by
  unfold copyOf
  split_ifs
  · exact Or.inl rfl
  · exact Or.inr rfl

theorem copyOf_inj {fs : Tree} {n m : Name} (h : copyOf cfg fs n = copyOf cfg fs m) : n = m := by
  have hn := congrArg List.head? h
  rcases copyOf_eq_or cfg fs n with h1 | h1 <;>
    rcases copyOf_eq_or cfg fs m with h2 | h2 <;> rw [h1, h2] at hn <;>
    exact Option.some.inj hn

theorem dumpDir_suffix_copyOf (fs : Tree) (n : Name) : cfg.dumpDir <:+ copyOf cfg fs n := by
  rcases copyOf_eq_or cfg fs n with h | h
  · rw [h]
    exact ⟨[n, n], rfl⟩
  · rw [h]
    exact ⟨[n], rfl⟩

theorem copyOf_congr {fs fs' : Tree} {n : Name}
    (h1 : fs'.get (n :: cfg.dumpDir) = fs.get (n :: cfg.dumpDir))
    (h2 : fs'.get (n :: n :: cfg.dumpDir) = fs.get (n :: n :: cfg.dumpDir)) :
    fs'.get (copyOf cfg fs' n) = fs.get (copyOf cfg fs n) := by
  unfold copyOf
  rw [h1]
  split_ifs
  · exact h2
  · exact h1

theorem cons_cons_ne (m n k : Name) (d : Path) : m :: n :: d ≠ k :: d := by
  intro h
  exact List.cons_ne_self n d (List.cons.inj h).2

theorem diffFilename_ne (n : Name) (tm : Tm) : diffFilename n tm ≠ n := by
  intro h
  have hlen := congrArg List.length h
  simp only [diffFilename, List.length_append] at hlen
  have hpos : 0 < (ascii "_").length := by decide
  omega

theorem get_put_entry {fs : Tree} {k m n file : Name} {d : Path} {v : Node (List Byte)}
    (h : n = m → k ≠ file) : (fs.put file (m :: d) v).get (k :: n :: d) = fs.get (k :: n :: d) := by
  apply FileTree.get_put_of_ne
  intro he
  obtain ⟨hfile, hn⟩ := List.cons.inj he
  exact h (List.cons.inj hn).1 hfile

theorem ne_of_not_suffix {d p q : Path} (hp : d <:+ p) (hq : ¬ d <:+ q) : p ≠ q := by
  rintro rfl
  exact hq hp

theorem get_cpTree {fs : Tree} {n : Name} {src q : Path} (h1 : q ≠ n :: cfg.dumpDir)
    (h2 : q ≠ src.headD [] :: n :: cfg.dumpDir) : (cpTree cfg fs n src).get q = fs.get q := by
  unfold cpTree cpTarget
  cases content fs src with
  | none => rfl
  | some c =>
    dsimp only
    split_ifs
    · rfl
    · exact FileTree.get_put_of_ne h2
    · rfl
    · exact FileTree.get_put_of_ne h1

theorem get_cpTree_outside {fs : Tree} {n : Name} {src q : Path} (h : ¬ cfg.dumpDir <:+ q) :
    (cpTree cfg fs n src).get q = fs.get q := by
  apply get_cpTree
  · exact (ne_of_not_suffix ⟨[n], rfl⟩ h).symm
  · exact (ne_of_not_suffix ⟨[src.headD [], n], rfl⟩ h).symm

theorem get_cpTree_of_name_ne {fs : Tree} {n m : Name} {src : Path} (h : m ≠ n) :
    (cpTree cfg fs n src).get (m :: cfg.dumpDir) = fs.get (m :: cfg.dumpDir) ∧
      (cpTree cfg fs n src).get (m :: m :: cfg.dumpDir) = fs.get (m :: m :: cfg.dumpDir) := by
  constructor
  · apply get_cpTree
    · intro he
      exact h (List.cons.inj he).1
    · exact (cons_cons_ne _ _ _ _).symm
  · apply get_cpTree
    · exact cons_cons_ne _ _ _ _
    · intro he
      exact h (List.cons.inj (List.cons.inj he).2).1

/-- A file from outside the dump directory is stored as the copy for its name. -/
theorem get_cpTree_copyOf {fs : Tree} {n : Name} {d : Path} {c : List Byte}
    (hdump : fs.get cfg.dumpDir = some .dir) (hout : ¬ cfg.dumpDir <:+ n :: d)
    (hfree : fs.get (n :: n :: cfg.dumpDir) ≠ some .dir) (hc : fs.get (n :: d) = some (.file c)) :
    (cpTree cfg fs n (n :: d)).get (copyOf cfg (cpTree cfg fs n (n :: d)) n) = some (.file c) := by
  have hcontent : content fs (n :: d) = some c := content_eq_some_iff.mpr hc
  unfold cpTree cpTarget
  rw [hcontent]
  by_cases hdir : fs.get (n :: cfg.dumpDir) = some .dir
  · have hne : n :: n :: cfg.dumpDir ≠ n :: d := ne_of_not_suffix ⟨[n, n], rfl⟩ hout
    have hallows : fs.Allows n (n :: cfg.dumpDir) (.file c) :=
      FileTree.allows_file_iff.mpr ⟨hdir, hfree⟩
    have hkeep : (fs.put n (n :: cfg.dumpDir) (.file c)).get (n :: cfg.dumpDir) = some .dir :=
      FileTree.get_put_of_dir hdir
    simp only [hdir, if_true, List.headD_cons, if_neg hne, copyOf, hkeep]
    exact FileTree.get_put_self hallows
  · have hne : n :: cfg.dumpDir ≠ n :: d := ne_of_not_suffix ⟨[n], rfl⟩ hout
    have hallows : fs.Allows n cfg.dumpDir (.file c) :=
      FileTree.allows_file_iff.mpr ⟨hdump, hdir⟩
    have hself := FileTree.get_put_self hallows
    have hcopy : copyOf cfg (fs.put n cfg.dumpDir (.file c)) n = n :: cfg.dumpDir := by
      unfold copyOf
      rw [hself]
      rfl
    simp only [hdir, if_false, if_neg hne, hcopy]
    exact hself

end OsTasks.Backup
