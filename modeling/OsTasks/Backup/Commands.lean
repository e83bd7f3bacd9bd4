import OsTasks.Lib.Decimal
import OsTasks.Lib.FileTree

/-! The texts that the backup daemon of task_6 hands to the shell. -/
namespace OsTasks.Backup
open OsTasks.Lib

abbrev Name := List Byte

/-- Absolute, from the innermost name out. -/
abbrev Path := List Name

abbrev Tree := FileTree Name (List Byte)

/-- `PATH_MAX`, the size of `buf` and `filepath`. -/
def pathMax : ℕ := 4096

/-- The size of `diffFilename`. -/
def diffFilenameSize : ℕ := 100

def slash : Byte := 0x2f

def findFile : Name := ascii "find_file"

/-- What `localtime` fills in of `struct tm`. -/
structure Tm where
  tmYear : ℕ
  tmMon : ℕ
  tmMday : ℕ
  tmHour : ℕ
  tmMin : ℕ
  tmSec : ℕ

/-- The configuration and what the daemon runs in: the working directory of the watched process,
`dump_dir` with the directory it names, and the program `diff`. -/
structure Config where
  cwd : Path
  dumpText : List Byte
  dumpDir : Path
  localtime : ℕ → Tm
  diff : List Byte → List Byte → List Byte

/-- Bytes that the shell, `find -name` or `fscanf` does not take for themselves. -/
def special : List Byte := [0x20, 0x09, 0x0a, 0x0b, 0x0c, 0x0d] ++ ascii "|&;<>()$`\\\"'*?[{}!"

def literal (text : List Byte) : Bool := text.all fun b => b ∉ special

/-- A word of its own: it must not start a comment or name a home directory. -/
def literalName (n : Name) : Bool :=
  literal n ∧ n.head? ≠ some 0x23 ∧ n.head? ≠ some 0x7e

/-- The line `find` prints for a path under `cwd`. -/
def relText (cwd p : Path) : List Byte :=
  0x2e :: ((p.take (p.length - cwd.length)).reverse.map (slash :: ·)).flatten

def diffFilename (n : Name) (tm : Tm) : Name :=
  n ++ ascii "_" ++ decimal (tm.tmYear + 1900) ++ ascii "-" ++ padded 2 (tm.tmMon + 1) ++
    ascii "-" ++ padded 2 tm.tmMday ++ ascii "_" ++ padded 2 tm.tmHour ++ ascii "-" ++
    padded 2 tm.tmMin ++ ascii "-" ++ padded 2 tm.tmSec ++ ascii ".diff"

section Texts
variable (cfg : Config)

/-- "dump_dir/filename" -/
def dumpPath (n : Name) : List Byte := cfg.dumpText ++ slash :: n

/-- `filepath` after the `fscanf`: the first line of `find`, or what it held before. -/
def filepath (src : Option Path) : List Byte :=
  src.elim (dumpPath cfg findFile) (relText cfg.cwd)

def findCommand (n : Name) : List Byte :=
  ascii "find -name " ++ n ++ ascii " > " ++ dumpPath cfg findFile

def mkdirCommand (n : Name) : List Byte := ascii "mkdir " ++ dumpPath cfg n

def cpCommand (src : Option Path) (n : Name) : List Byte :=
  ascii "cp " ++ filepath cfg src ++ ascii " " ++ dumpPath cfg n

def diffCommand (src : Option Path) (n : Name) (tm : Tm) : List Byte :=
  ascii "diff " ++ filepath cfg src ++ ascii " " ++ dumpPath cfg n ++ slash :: n ++ ascii " > " ++
    dumpPath cfg n ++ slash :: diffFilename n tm

/-- What the words of the commands for the name `n` stand for is what they say. -/
def Plain (n : Name) (src : Option Path) : Prop :=
  literalName n = true ∧ literal cfg.dumpText = true ∧ cfg.dumpText.head? = some slash ∧
    literal (filepath cfg src) = true

instance (n : Name) (src : Option Path) : Decidable (Plain cfg n src) :=
  inferInstanceAs (Decidable (_ ∧ _))

end Texts

end OsTasks.Backup
