import OsTasks.Lib.Scan

/-! What the clients of the file server of task_7 write to its FIFOs, and what the server reads
out of it. -/
namespace OsTasks.FileServer
open OsTasks.Lib

abbrev Name := List Byte

/-- `BUF_SIZE`. -/
def bufSize : ℕ := 1024

/-- The arguments of a `send_file` job. -/
structure Request where
  destFileName : Name
  fileName : Name
  deriving DecidableEq

/-- "OFF" -/
def off : Name := [0x4f, 0x46, 0x46]

/-- "REG" -/
def reg : Name := [0x52, 0x45, 0x47]

/-- "GET" -/
def get : Name := [0x47, 0x45, 0x54]

def space : Byte := 0x20

def newline : Byte := 0x0a

inductive Line where
  | reg (tx rx : Token)
  | get (file : Token)
  | other (text : List Byte)
  deriving DecidableEq

def Line.text : Line → List Byte
  | .reg tx rx => FileServer.reg ++ space :: (tx.bytes ++ space :: (rx.bytes ++ [newline]))
  | .get file => FileServer.get ++ space :: (file.bytes ++ [newline])
  | .other text => text

/-- What a client writes at once. -/
structure Message where
  line : Line
  fits : line.text.length < bufSize
  ends : line.text.getLast? = some newline
  deriving DecidableEq

def Message.text (m : Message) : List Byte := m.line.text

/-- What the arrays of `server_cmd` hold before it fills them. -/
structure Stack where
  buf : List Byte
  length_buf : buf.length = bufSize
  cmd : Name
  txFifo : Name
  rxFifo : Name

inductive Command where
  | off
  | unknown
  | reg (tx rx : Name)
  deriving DecidableEq

/-- What `server_cmd` makes of the bytes of one read: a token that is not read keeps what the array
held. -/
def command (stack : Stack) (received : List Byte) : Option Command :=
  (scan 3 (overwrite stack.buf received)).map fun r =>
    let cmd := r.1.getD 0 stack.cmd
    if cmd = off then .off
    else if cmd ≠ reg then .unknown
    else .reg (r.1.getD 1 stack.txFifo) (r.1.getD 2 stack.rxFifo)

/-- What `client_request` makes of the bytes of one read: the file, or nothing on a wrong command.
The space that ends its format reads on to a byte that is none. -/
def clientRequest (received : List Byte) : Option (Option Name) :=
  (scan 2 (overwrite (List.replicate bufSize 0) received)).bind fun r =>
    if r.2.dropWhile isSpace = [] then none
    else some (if r.1.getD 0 [] = get then some (r.1.getD 1 []) else none)

theorem Message.text_ne_nil (m : Message) : m.text ≠ [] := by
  intro h
  have he := m.ends
  rw [show m.line.text = [] from h] at he
  cases he

theorem Message.take_text (m : Message) : m.text.take bufSize = m.text :=
  List.take_of_length_le m.fits.le

theorem Message.drop_text (m : Message) : m.text.drop bufSize = [] :=
  List.drop_of_length_le m.fits.le

def regToken : Token := ⟨reg, by decide, List.all_eq_true.mp (by decide)⟩

def getToken : Token := ⟨get, by decide, List.all_eq_true.mp (by decide)⟩

/-- A `REG` message that one read returns alone is a registration under its two names, whatever
the arrays held. -/
theorem command_reg (stack : Stack) {m : Message} {tx rx : Token} (h : m.line = .reg tx rx) :
    command stack m.text = some (.reg tx.bytes rx.bytes) := by
  have hs : isSpace space = true := by decide
  have hn : isSpace newline = true := by decide
  have ht : m.text = regToken.bytes ++ space :: (tx.bytes ++ space :: (rx.bytes ++ [newline])) := by
    unfold Message.text
    rw [h]
    rfl
  have hscan : scan 3 (overwrite stack.buf m.text) =
      some ([reg, tx.bytes, rx.bytes], newline :: stack.buf.drop m.text.length) := by
    unfold overwrite
    nth_rewrite 1 [ht]
    simp only [List.append_assoc, List.cons_append, List.nil_append]
    rw [scan_token regToken hs, scan_space hs, scan_token tx hs, scan_space hs, scan_token rx hn]
    rfl
  unfold command
  rw [hscan]
  rfl

theorem zero_mem_drop (m : Message) : 0 ∈ (List.replicate bufSize (0 : Byte)).drop m.text.length := by
  rw [List.drop_replicate, List.mem_replicate]
  exact ⟨(Nat.sub_pos_of_lt m.fits).ne', rfl⟩

theorem clientRequest_isSome (m : Message) : ∃ r, clientRequest m.text = some r := by
  have hz : 0 ∈ overwrite (List.replicate bufSize 0) m.text :=
    List.mem_append_right _ (zero_mem_drop m)
  obtain ⟨r, hr, h0⟩ := scan_of_zero_mem 2 hz
  have hd : r.2.dropWhile isSpace ≠ [] := List.ne_nil_of_mem (mem_dropWhile (by decide) h0)
  unfold clientRequest
  rw [hr, Option.bind_some, if_neg hd]
  exact ⟨_, rfl⟩

/-- A `GET` message that one read returns alone is a request for its file. -/
theorem clientRequest_get {m : Message} {file : Token} (h : m.line = .get file) :
    clientRequest m.text = some (some file.bytes) := by
  have hs : isSpace space = true := by decide
  have hn : isSpace newline = true := by decide
  have ht : m.text = getToken.bytes ++ space :: (file.bytes ++ [newline]) := by
    unfold Message.text
    rw [h]
    rfl
  have hscan : scan 2 (overwrite (List.replicate bufSize 0) m.text) =
      some ([get, file.bytes],
        newline :: (List.replicate bufSize (0 : Byte)).drop m.text.length) := by
    unfold overwrite
    nth_rewrite 1 [ht]
    simp only [List.append_assoc, List.cons_append, List.nil_append]
    rw [scan_token getToken hs, scan_space hs, scan_token file hn]
    rfl
  have hd : (newline :: (List.replicate bufSize (0 : Byte)).drop m.text.length).dropWhile
      isSpace ≠ [] := by
    apply List.ne_nil_of_mem
    apply mem_dropWhile (b := 0) (by decide)
    exact List.mem_cons_of_mem _ (zero_mem_drop m)
  unfold clientRequest
  rw [hscan, Option.bind_some, if_neg hd]
  rfl

end OsTasks.FileServer
