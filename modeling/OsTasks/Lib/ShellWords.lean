import OsTasks.Lib.Glob

/-! The shell command language of POSIX, as far as one simple command goes: tokens, quotes,
operators and redirections. The expansions of `$`, of a backquote, of a tilde and of a pattern
depend on more than the text: a text with one of them has no command here. -/
namespace OsTasks.Lib.Sh

/-- The bytes, each with whether it is quoted. -/
abbrev Word := List (Byte × Bool)

inductive Token where
  | word (w : Word)
  | ioNumber (digits : List Byte)
  | op (text : List Byte)
  | newline
  deriving DecidableEq

inductive Mode where
  | plain
  /-- behind a backslash -/
  | escape
  | single
  | double
  /-- behind a backslash in double quotes -/
  | doubleEscape
  | comment
  deriving DecidableEq

/-- The token that has begun. -/
inductive Current where
  | none
  | word (w : Word)
  | op (text : List Byte)
  deriving DecidableEq

def isBlank (b : Byte) : Bool := b = 0x20 || b = 0x09

def opBytes : List Byte := ascii "|&;<>()"

def operators : List (List Byte) :=
  ["|", "&", ";", "<", ">", "(", ")", "&&", "||", ";;", "<<", ">>", "<&", ">&", "<>", "<<-",
    ">|"].map ascii

/-- The operators that a file follows. -/
def redirections : List (List Byte) := ["<", ">", ">>", "<&", ">&", "<>", ">|"].map ascii

/-- The words with a meaning of their own where a command begins. -/
def reserved : List (List Byte) :=
  ["!", "\x7b", "\x7d", "case", "do", "done", "elif", "else", "esac", "fi", "for", "if", "in",
    "then", "until", "while"].map ascii

def Word.text (w : Word) : List Byte := w.map Prod.fst

def Current.begun : Current → Word
  | .word w => w
  | _ => []

def Current.isWord : Current → Bool
  | .word _ => true
  | _ => false

/-- The operator that ends where a word goes on. -/
def Current.endOp : Current → List Token
  | .op t => [.op t]
  | _ => []

/-- The token that ends where the byte `b` does not belong to it. -/
def Current.endAt (b : Byte) : Current → List Token
  | .none => []
  | .word w =>
    if w ≠ [] ∧ (w.all fun c => isDigit c.1 && !c.2) = true ∧ b ∈ ascii "<>" then
      [.ioNumber w.text]
    else [.word w]
  | .op t => [.op t]

def Current.extendedBy (b : Byte) : Current → Option (List Byte)
  | .op t => if t ++ [b] ∈ operators then some (t ++ [b]) else Option.none
  | _ => Option.none

/-- A byte outside of quotes: the tokens that end, and how the text goes on. -/
def plainStep (cur : Current) (b : Byte) : Option (List Token × Mode × Current) :=
  match cur.extendedBy b with
  | some t => some ([], .plain, .op t)
  | none =>
    if b = 0 ∨ b ∈ ascii "$`" then none
    else if b = 0x5c then some ([], .escape, cur)
    else if isBlank b then some (cur.endAt b, .plain, .none)
    else if b = 0x0a then some (cur.endAt b ++ [.newline], .plain, .none)
    else if b ∈ opBytes then some (cur.endAt b, .plain, .op [b])
    else if b = 0x23 ∧ cur.isWord = false then some (cur.endAt b, .comment, .none)
    else if b = 0x27 then some (cur.endOp, .single, .word cur.begun)
    else if b = 0x22 then some (cur.endOp, .double, .word cur.begun)
    else some (cur.endOp, .plain, .word (cur.begun ++ [(b, false)]))

def step : Mode → Current → Byte → Option (List Token × Mode × Current)
  | .plain, cur, b => plainStep cur b
  | .escape, cur, b =>
    if b = 0 then none
    else if b = 0x0a then some ([], .plain, cur)
    else some (cur.endOp, .plain, .word (cur.begun ++ [(b, true)]))
  | .single, cur, b =>
    if b = 0 then none
    else if b = 0x27 then some ([], .plain, cur)
    else some ([], .single, .word (cur.begun ++ [(b, true)]))
  | .double, cur, b =>
    if b = 0 ∨ b ∈ ascii "$`" then none
    else if b = 0x22 then some ([], .plain, cur)
    else if b = 0x5c then some ([], .doubleEscape, cur)
    else some ([], .double, .word (cur.begun ++ [(b, true)]))
  | .doubleEscape, cur, b =>
    if b = 0 then none
    else if b = 0x0a then some ([], .double, cur)
    else if b ∈ ascii "$`\"\\" then some ([], .double, .word (cur.begun ++ [(b, true)]))
    else some ([], .double, .word (cur.begun ++ [(0x5c, true), (b, true)]))
  | .comment, _, b =>
    if b = 0 then none
    else if b = 0x0a then some ([.newline], .plain, .none)
    else some ([], .comment, .none)

/-- The end of the text. A quote that is still open has none. -/
def finish : Mode → Current → Option (List Token)
  | .plain, cur => some (cur.endAt 0x0a)
  | .comment, _ => some []
  | _, _ => none

def lexFrom : Mode → Current → List Byte → Option (List Token)
  | mode, cur, [] => finish mode cur
  | mode, cur, b :: s =>
    (step mode cur b).bind fun r => (lexFrom r.2.1 r.2.2 s).map (r.1 ++ ·)

def lex (text : List Byte) : Option (List Token) := lexFrom .plain .none text

/-- What pathname expansion matches: a backslash before each quoted byte. -/
def Word.pattern (w : Word) : List Byte :=
  w.flatMap fun c => if c.2 = true ∧ c.1 ≠ 0x2f then [0x5c, c.1] else [c.1]

/-- No component of the path stands for others. -/
def literalPath (path : List Byte) : Bool := (path.splitOn 0x2f).all allLiteral

/-- A tilde stands for a home directory up to the first slash, if no byte there is quoted. -/
def Word.hasTilde (w : Word) : Bool :=
  w.head? = some (0x7e, false) ∧ (w.takeWhile fun c => c.1 ≠ 0x2f).all fun c => !c.2

def Word.argument (w : Word) : Option (List Byte) :=
  if w.hasTilde = false ∧ literalPath w.pattern = true then some w.text else none

/-- The file of a redirection is no pattern. -/
def Word.target (w : Word) : Option (List Byte) := if w.hasTilde = false then some w.text else none

structure Redirect where
  io : List Byte
  op : List Byte
  target : List Byte
  deriving DecidableEq

structure Command where
  args : List (List Byte)
  redirects : List Redirect
  deriving DecidableEq

/-- The arguments and redirections of one command and no other. -/
def parts : List Token → Option Command
  | [] => some ⟨[], []⟩
  | .newline :: ts => if ts.all (· = .newline) then some ⟨[], []⟩ else none
  | .word w :: ts => do
    let c ← parts ts
    let a ← w.argument
    some { c with args := a :: c.args }
  | .ioNumber io :: .op op :: .word w :: ts => redirected io op w (parts ts)
  | .op op :: .word w :: ts => redirected [] op w (parts ts)
  | _ => none
where
  redirected (io op : List Byte) (w : Word) (rest : Option Command) : Option Command := do
    let c ← rest
    let file ← w.target
    if op ∈ redirections then some { c with redirects := ⟨io, op, file⟩ :: c.redirects } else none

/-- The first argument names the command: it is no reserved word and no assignment. -/
def Command.named (c : Command) : Bool :=
  match c.args with
  | [] => false
  | name :: _ => name ∉ reserved ∧ 0x3d ∉ name

/-- The simple command that a text is, if it is one and nothing else. -/
def command (text : List Byte) : Option Command := do
  let c ← (lex text).bind parts
  if c.named then some c else none

def Redirect.text (r : Redirect) : List Byte := r.io ++ r.op ++ 0x20 :: r.target

/-- The words with a space between them, as `printf` puts them together. -/
def Command.text (c : Command) : List Byte :=
  [0x20].intercalate (c.args ++ c.redirects.map Redirect.text)

end OsTasks.Lib.Sh
