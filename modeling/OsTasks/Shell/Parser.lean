import OsTasks.Lib.Strtok

/-! The shell of task_1: `parse_cmdline` and `parse_cmd`. Reads and writes outside a block have no
result. -/
namespace OsTasks.Shell
open OsTasks.Lib

def maxNumOfTokens : ℕ := 2097152

def maxStrLen : ℕ := 2097152

def maxNumOfCmd : ℕ := 2097152

def space : Byte := 0x20

def bar : Byte := 0x7c

def newline : Byte := 0x0a

/-- An entry of an array of pointers. -/
inductive Slot (α : Type) where
  | null
  /-- whatever address `malloc` left there -/
  | wild
  | block (content : α)

abbrev Argv := ℕ → Slot (List Byte)

abbrev CmdArray := ℕ → Slot Argv

/-- What the blocks that `malloc` returns hold: `cmd_array`, and for the command of each number the
block of its text and its array of tokens. -/
structure Malloc where
  cmdArray : CmdArray
  text : ℕ → List Byte
  length_text : ∀ n, (text n).length = maxStrLen
  argv : ℕ → Argv

/-- The loop of `parse_cmd` from its `i`-th token on. -/
def parseCmdFrom (a : Argv) (i : ℕ) (m : List Byte) : Option Argv :=
  match _h : strtok space m with
  | none => none
  | some none => some a
  | some (some (arg, rest)) =>
    if i < maxNumOfTokens then
      parseCmdFrom (Function.update a i (.block (strncpy [] arg (strlen arg + 1)))) (i + 1) rest
    else none
termination_by m.length
decreasing_by exact strtok_length_lt _h

def parseCmd (a : Argv) (cmd : List Byte) : Option Argv := parseCmdFrom a 0 cmd

/-- The variables of `parse_cmdline`. -/
structure Parse where
  cmdArray : CmdArray
  numOfCmd : ℕ
  prevCmdOffset : ℕ

section Line
variable (h : Malloc) (cmdline : List Byte)

/-- The body of the loop at a '|' or at the NUL, up to its `break`. A length below zero has no
result. -/
def cutCmd (i : ℕ) (b : Byte) (s : Parse) : Option Parse :=
  if s.prevCmdOffset ≤ i ∧ i - s.prevCmdOffset < maxStrLen ∧ s.numOfCmd < maxNumOfCmd then
    let cmdLen := i - s.prevCmdOffset
    let cmd := (strncpy (h.text s.numOfCmd) (cmdline.drop s.prevCmdOffset) cmdLen).set cmdLen 0
    (parseCmd (h.argv s.numOfCmd) cmd).map fun argv =>
      { cmdArray := Function.update s.cmdArray s.numOfCmd (.block argv)
        numOfCmd := s.numOfCmd + 1
        prevCmdOffset := s.prevCmdOffset + (if b = bar then 2 else 0) + cmdLen }
  else none

/-- The loop from `i` on, where `cmdline` goes on with the last argument but one. -/
def parseFrom : ℕ → List Byte → Parse → Option Parse
  | _, [], _ => none
  | i, b :: bs, s =>
    if b = bar ∨ b = 0 then
      (cutCmd h cmdline i b s).bind fun s => if b = 0 then some s else parseFrom (i + 1) bs s
    else parseFrom (i + 1) bs s

def parseCmdline : Option CmdArray :=
  (parseFrom h cmdline 0 cmdline ⟨h.cmdArray, 0, 0⟩).map Parse.cmdArray

end Line

end OsTasks.Shell
