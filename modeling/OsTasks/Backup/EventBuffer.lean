import OsTasks.Backup.Daemon
import OsTasks.Lib.LittleEndian

/-! The buffer that `monitor_dir` reads the events into, byte by byte, and the loop that walks over
it: how it carries out the reads of the daemon. -/
namespace OsTasks.Backup
open OsTasks.Lib

def inModify : UInt32 := 0x2
def inCreate : UInt32 := 0x100
def inDelete : UInt32 := 0x200

/-- What the daemon asks to be told of. -/
def watched : UInt32 := inModify ||| inCreate ||| inDelete

/-- `EVENT_SIZE`, the size of a `struct inotify_event` without its name. -/
def eventSize : ℕ := 16

/-- `BUF_LEN` -/
def bufLen : ℕ := 1024 * (eventSize + 16)

/-- A `struct inotify_event` in the kernel's queue. Only what happens to an entry of a directory has
one of the bits of `watched`, and it comes with the name of the entry. -/
structure Record where
  wd : UInt32
  mask : UInt32
  cookie : UInt32
  name : Name
  plain : 0 ∉ name
  short : name.length ≤ 255
  named : mask &&& watched ≠ 0 → name ≠ []

/-- `len`: the name with a NUL, padded to a multiple of `EVENT_SIZE`. -/
def Record.len (r : Record) : ℕ :=
  if r.name = [] then 0 else (r.name.length + eventSize) / eventSize * eventSize

def Record.bytes (r : Record) : List Byte :=
  littleEndian 4 r.wd.toNat ++ littleEndian 4 r.mask.toNat ++ littleEndian 4 r.cookie.toNat ++
    littleEndian 4 r.len ++ r.name ++ List.replicate (r.len - r.name.length) 0

/-- What the loop does for an event: `file_created`, `file_modified`, or the line "FILE %s is
deleted". -/
structure Call where
  kind : Kind
  name : Name
  deriving DecidableEq

/-- The three tests of `ev->mask`. -/
def callsOf (mask : UInt32) (name : Name) : List Call :=
  (if mask &&& inCreate ≠ 0 then [⟨.create, name⟩] else []) ++
    (if mask &&& inModify ≠ 0 then [⟨.modify, name⟩] else []) ++
    (if mask &&& inDelete ≠ 0 then [⟨.delete, name⟩] else [])

/-- The `uint32_t` at the start of `bytes`. -/
def word (bytes : List Byte) : UInt32 := UInt32.ofNat (ofLittleEndian (bytes.take 4))

/-- The inner loop of `monitor_dir` from `i` on. -/
def walk (buf : List Byte) (len i : ℕ) : List Call :=
  if i < len then
    let ev := buf.drop i
    callsOf (word (ev.drop 4)) (cstr (ev.drop eventSize)) ++
      walk buf len (i + (eventSize + (word (ev.drop 12)).toNat))
  else []
termination_by len - i
decreasing_by
  unfold eventSize
  omega

/-- `read` returns the whole events that fit. -/
def fitting : ℕ → List Record → List Record
  | _, [] => []
  | room, r :: rs =>
    if r.bytes.length ≤ room then r :: fitting (room - r.bytes.length) rs else []

def bytesOf (rs : List Record) : List Byte := rs.flatMap Record.bytes

/-- What the kernel has queued, what `buf` holds and what the loop has done so far. -/
structure Buffer where
  queue : List Record
  buf : List Byte
  calls : List Call

/-- One pass of the outer loop, whose `read` waits for an event. -/
def Buffer.pass (b : Buffer) : Option Buffer :=
  if b.queue = [] then none
  else
    let rs := fitting bufLen b.queue
    let buf := overwrite b.buf (bytesOf rs)
    some { queue := b.queue.drop rs.length, buf := buf,
           calls := b.calls ++ walk buf (bytesOf rs).length 0 }

theorem length_bytes (r : Record) : r.bytes.length = eventSize + r.len := by
  have hle : r.name.length ≤ r.len := by
    unfold Record.len eventSize
    split_ifs with h
    · rw [h]
      exact le_rfl
    · omega
  simp only [Record.bytes, List.length_append, length_littleEndian, List.length_replicate]
  unfold eventSize
  omega

theorem word_littleEndian {n : ℕ} (hn : n < 2 ^ 32) (rest : List Byte) :
    (word (littleEndian 4 n ++ rest)).toNat = n := by
  have htake : (littleEndian 4 n ++ rest).take 4 = littleEndian 4 n := by
    rw [List.take_append_of_le_length (length_littleEndian 4 n).ge]
    exact List.take_of_length_le (length_littleEndian 4 n).le
  rw [word, htake, ofLittleEndian_littleEndian, UInt32.toNat_ofNat']
  omega

/-- What the loop does for a record. -/
def Record.calls (r : Record) : List Call := callsOf r.mask r.name

theorem callsOf_of_unwatched {mask : UInt32} (h : mask &&& watched = 0) (name : Name) :
    callsOf mask name = [] := by
  have hzero : ∀ bit : UInt32, watched &&& bit = bit → mask &&& bit = 0 := by
    intro bit hbit
    rw [← hbit, ← UInt32.and_assoc, h, UInt32.zero_and]
  have hcreate := hzero inCreate (by decide)
  have hmodify := hzero inModify (by decide)
  have hdelete := hzero inDelete (by decide)
  simp [callsOf, hcreate, hmodify, hdelete]

theorem Record.callsOf_cstr (r : Record) (rest : List Byte) :
    callsOf r.mask (cstr (r.name ++ List.replicate (r.len - r.name.length) 0 ++ rest)) =
      r.calls := by
  by_cases hname : r.name = []
  · have hmask : r.mask &&& watched = 0 := by
      by_contra hne
      exact r.named hne hname
    rw [Record.calls, callsOf_of_unwatched hmask, callsOf_of_unwatched hmask]
  · have hpad : 0 < r.len - r.name.length := by
      unfold Record.len eventSize
      rw [if_neg hname]
      omega
    obtain ⟨k, hk⟩ := Nat.exists_eq_add_of_lt hpad
    have hcstr : cstr (r.name ++ List.replicate (r.len - r.name.length) 0 ++ rest) = r.name := by
      rw [hk, Nat.zero_add, List.replicate_succ, List.append_assoc, List.cons_append,
        cstr_append_zero, cstr_eq_self_iff]
      exact r.plain
    rw [hcstr, Record.calls]

theorem Record.len_lt (r : Record) : r.len < 2 ^ 32 := by
  have := r.short
  unfold Record.len eventSize
  split_ifs <;> omega

/-- The loop reads the fields of a record where they lie. -/
theorem walk_record (before rest : List Byte) (r : Record) {len : ℕ} (hlen : before.length < len) :
    walk (before ++ (r.bytes ++ rest)) len before.length =
      r.calls ++ walk (before ++ (r.bytes ++ rest)) len (before.length + r.bytes.length) := by
  have hdrop : (before ++ (r.bytes ++ rest)).drop before.length = r.bytes ++ rest :=
    List.drop_left
  have hfour : ∀ (n : ℕ) (l : List Byte), (littleEndian 4 n ++ l).drop 4 = l := by
    intro n l
    exact List.drop_left' (length_littleEndian 4 n)
  have hbytes : r.bytes ++ rest = littleEndian 4 r.wd.toNat ++ (littleEndian 4 r.mask.toNat ++
      (littleEndian 4 r.cookie.toNat ++ (littleEndian 4 r.len ++
        (r.name ++ List.replicate (r.len - r.name.length) 0 ++ rest)))) := by
    simp only [Record.bytes, List.append_assoc]
  have hd4 := hfour r.wd.toNat (littleEndian 4 r.mask.toNat ++ (littleEndian 4 r.cookie.toNat ++
    (littleEndian 4 r.len ++ (r.name ++ List.replicate (r.len - r.name.length) 0 ++ rest))))
  have hd12 : (r.bytes ++ rest).drop 12 = littleEndian 4 r.len ++
      (r.name ++ List.replicate (r.len - r.name.length) 0 ++ rest) := by
    rw [hbytes, show 12 = 4 + (4 + 4) from rfl, ← List.drop_drop, ← List.drop_drop, hfour, hfour,
      hfour]
  have hd16 : (r.bytes ++ rest).drop eventSize =
      r.name ++ List.replicate (r.len - r.name.length) 0 ++ rest := by
    rw [show eventSize = 12 + 4 from rfl, ← List.drop_drop, hd12, hfour]
  have hmask : word ((r.bytes ++ rest).drop 4) = r.mask := by
    apply UInt32.toNat_inj.mp
    rw [hbytes, hd4]
    exact word_littleEndian r.mask.toNat_lt _
  have hsize : (word ((r.bytes ++ rest).drop 12)).toNat = r.len := by
    rw [hd12]
    exact word_littleEndian r.len_lt _
  rw [walk, if_pos hlen]
  dsimp only
  rw [hdrop, hmask, hsize, hd16, r.callsOf_cstr, length_bytes]

/-- The loop sees the records one by one, and nothing behind the bytes that were read. -/
theorem walk_bytesOf (rs : List Record) (before rest : List Byte) :
    walk (before ++ (bytesOf rs ++ rest)) (before.length + (bytesOf rs).length) before.length =
      rs.flatMap Record.calls := by
  induction rs generalizing before with
  | nil =>
    rw [walk, if_neg (by simp [bytesOf])]
    rfl
  | cons r rs ih =>
    have hcons : bytesOf (r :: rs) = r.bytes ++ bytesOf rs := List.flatMap_cons
    have hpos : 0 < r.bytes.length := by
      rw [length_bytes]
      unfold eventSize
      omega
    have hlen : before.length < before.length + (bytesOf (r :: rs)).length := by
      rw [hcons, List.length_append]
      omega
    have hfirst := walk_record before (bytesOf rs ++ rest) r hlen
    have hrest := ih (before ++ r.bytes)
    rw [List.length_append, List.append_assoc] at hrest
    rw [hcons] at hfirst
    rw [hcons, List.append_assoc, hfirst, List.length_append, ← Nat.add_assoc, hrest,
      List.flatMap_cons]

theorem fitting_isPrefix (room : ℕ) (rs : List Record) : fitting room rs <+: rs := by
  induction rs generalizing room with
  | nil => exact List.prefix_rfl
  | cons r rs ih =>
    rw [fitting]
    split_ifs
    · exact (List.prefix_cons_inj r).mpr (ih _)
    · exact List.nil_prefix

theorem fitting_ne_nil {rs : List Record} (h : rs ≠ []) : fitting bufLen rs ≠ [] := by
  obtain ⟨r, rest, rfl⟩ := List.exists_cons_of_ne_nil h
  have hfits : r.bytes.length ≤ bufLen := by
    have := r.short
    rw [length_bytes]
    unfold Record.len eventSize bufLen eventSize
    split_ifs <;> omega
  rw [fitting, if_pos hfits]
  exact List.cons_ne_nil _ _

theorem Buffer.pass_eq_some {b b' : Buffer} (h : b.pass = some b') :
    b'.queue = b.queue.drop (fitting bufLen b.queue).length ∧
      b'.queue.length < b.queue.length ∧
      b'.calls = b.calls ++ (fitting bufLen b.queue).flatMap Record.calls := by
  unfold Buffer.pass at h
  split_ifs at h with hne
  have h := Option.some.inj h
  subst h
  have hpos := List.length_pos_iff.mpr (fitting_ne_nil hne)
  have hle := (fitting_isPrefix bufLen b.queue).length_le
  refine ⟨rfl, ?_, ?_⟩
  · show (b.queue.drop _).length < _
    rw [List.length_drop]
    omega
  · have hwalk := walk_bytesOf (fitting bufLen b.queue) []
      (b.buf.drop (bytesOf (fitting bufLen b.queue)).length)
    rw [List.nil_append, List.length_nil, Nat.zero_add] at hwalk
    exact congrArg (b.calls ++ ·) hwalk

inductive BufferAct where
  /-- the kernel queues a record -/
  | arrive (r : Record)
  | pass

/-- The passes of the outer loop between the records that arrive; `buf` may hold anything at
first. -/
def eventLoop (buf : List Byte) : Machine Buffer BufferAct where
  init := { queue := [], buf := buf, calls := [] }
  step := fun b a => match a with
    | .arrive r => some { b with queue := b.queue ++ [r] }
    | .pass => b.pass

/-- Beside the states, the records that have arrived. -/
def arrivals (buf : List Byte) : Machine (Buffer × List Record) BufferAct :=
  (eventLoop buf).withHistory [] fun _ a _ arrived => match a with
    | .arrive r => arrived ++ [r]
    | .pass => arrived

/-- However the records arrive between the reads, the loop acts on every record once and in order:
what it has done and what it will do for the records still queued is what all of them ask for. -/
theorem events_once {buf : List Byte} {b : Buffer} {arrived : List Record}
    (h : (arrivals buf).Reachable (b, arrived)) :
    b.calls ++ b.queue.flatMap Record.calls = arrived.flatMap Record.calls := by
  apply Machine.Reachable.invariant_withHistory
    (I := fun b arrived => b.calls ++ b.queue.flatMap Record.calls = arrived.flatMap Record.calls)
    _ _ h
  · rfl
  · intro c arrived a c' _ hc hstep
    cases a with
    | arrive r =>
      have hc' : { c with queue := c.queue ++ [r] } = c' := Option.some.inj hstep
      subst hc'
      dsimp only
      rw [List.flatMap_append, List.flatMap_append, ← hc, List.append_assoc]
    | pass =>
      obtain ⟨hqueue, -, hcalls⟩ := Buffer.pass_eq_some hstep
      have htake := List.prefix_iff_eq_append.mp (fitting_isPrefix bufLen c.queue)
      rw [hcalls, hqueue, List.append_assoc, ← List.flatMap_append, htake, hc]

/-- The file "a" has been created. -/
def createdA : Record where
  wd := 1
  mask := inCreate
  cookie := 0
  name := [0x61]
  plain := by decide
  short := by decide
  named := fun _ => by decide

/-- The file "seventeen letters" has been written, whose name takes two paddings. -/
def modifiedLong : Record where
  wd := 2
  mask := inModify
  cookie := 0
  name := ascii "seventeen letters"
  plain := by decide
  short := by decide
  named := fun _ => by decide

/-- Both lie in one read, over what was in the buffer before. -/
theorem events_once_two : ∃ b, (arrivals [0xff, 0xff]).Reachable (b, [createdA, modifiedLong]) ∧
    b.calls = [⟨.create, ascii "a"⟩, ⟨.modify, ascii "seventeen letters"⟩] := by
  obtain ⟨b, hb⟩ : ∃ b, Buffer.pass ⟨[createdA, modifiedLong], [0xff, 0xff], []⟩ = some b :=
    ⟨_, rfl⟩
  have hfirst : (arrivals [0xff, 0xff]).step (arrivals [0xff, 0xff]).init (.arrive createdA) =
      some (⟨[createdA], [0xff, 0xff], []⟩, [createdA]) := rfl
  have hsecond : (arrivals [0xff, 0xff]).step (⟨[createdA], [0xff, 0xff], []⟩, [createdA])
      (.arrive modifiedLong) =
      some (⟨[createdA, modifiedLong], [0xff, 0xff], []⟩, [createdA, modifiedLong]) := rfl
  have hpass : (arrivals [0xff, 0xff]).step
      (⟨[createdA, modifiedLong], [0xff, 0xff], []⟩, [createdA, modifiedLong]) .pass =
      some (b, [createdA, modifiedLong]) := Machine.withHistory_step_eq_some.mpr ⟨hb, rfl⟩
  have hreach := ((Machine.reachable_init.step hfirst).step hsecond).step hpass
  have hqueue : b.queue = [] := by
    have hfits : (fitting bufLen [createdA, modifiedLong]).length = 2 := by decide +kernel
    rw [(Buffer.pass_eq_some hb).1, hfits]
    rfl
  have hcalls := events_once hreach
  rw [hqueue, List.flatMap_nil, List.append_nil] at hcalls
  exact ⟨b, hreach, hcalls.trans (by decide)⟩

/-- The bit of an event. -/
def Kind.bit : Kind → UInt32
  | .create => inCreate
  | .modify => inModify
  | .delete => inDelete

def Event.call (ev : Event) : Call := ⟨ev.kind, ev.name⟩

/-- The records carry the events; between them may lie records of what is not watched. -/
inductive Carries : List Event → List Record → Prop
  | nil : Carries [] []
  | event {ev : Event} {evs : List Event} {r : Record} {rs : List Record} :
      r.mask &&& watched = ev.kind.bit → r.name = ev.name → Carries evs rs →
      Carries (ev :: evs) (r :: rs)
  | other {evs : List Event} {r : Record} {rs : List Record} :
      r.mask &&& watched = 0 → Carries evs rs → Carries evs (r :: rs)

theorem calls_of_bit {r : Record} {ev : Event} (hmask : r.mask &&& watched = ev.kind.bit)
    (hname : r.name = ev.name) : r.calls = [ev.call] := by
  have hbits : ∀ bit : UInt32, watched &&& bit = bit → r.mask &&& bit = ev.kind.bit &&& bit := by
    intro bit hbit
    rw [← hmask, UInt32.and_assoc, hbit]
  have hcreate := hbits inCreate (by decide)
  have hmodify := hbits inModify (by decide)
  have hdelete := hbits inDelete (by decide)
  unfold Record.calls callsOf Event.call
  rw [hcreate, hmodify, hdelete, hname]
  cases ev.kind <;> rfl

theorem Carries.split {evs : List Event} {first rest : List Record}
    (h : Carries evs (first ++ rest)) : ∃ k ≤ evs.length, Carries (evs.drop k) rest ∧
      first.flatMap Record.calls = (evs.take k).map Event.call := by
  induction first generalizing evs with
  | nil => exact ⟨0, Nat.zero_le _, h, rfl⟩
  | cons r first ih =>
    cases h with
    | event hmask hname h =>
      obtain ⟨k, hk, hrest, hcalls⟩ := ih h
      refine ⟨k + 1, Nat.succ_le_succ hk, hrest, ?_⟩
      rw [List.flatMap_cons, calls_of_bit hmask hname, hcalls]
      rfl
    | other hmask h =>
      obtain ⟨k, hk, hrest, hcalls⟩ := ih h
      refine ⟨k, hk, hrest, ?_⟩
      rw [List.flatMap_cons, Record.calls, callsOf_of_unwatched hmask, hcalls]
      rfl

/-- A pass over the buffer carries out a read of the daemon: it acts on the first `k` events of its
queue, in order and on no others, and leaves the records of the rest queued. -/
theorem read_refines {cfg : Config} {d : State} {b b' : Buffer} (hpc : d.pc = .batch [])
    (hqueue : Carries d.queue b.queue) (h : b.pass = some b') :
    ∃ k ≤ d.queue.length,
      b'.calls = b.calls ++ (d.queue.take k).map Event.call ∧
      Carries (d.queue.drop k) b'.queue ∧ b'.queue.length < b.queue.length ∧
      (0 < k → step cfg d (.read k) =
        some { d with pc := .batch (d.queue.take k), queue := d.queue.drop k }) := by
  obtain ⟨hrest, hlt, hcalls⟩ := Buffer.pass_eq_some h
  have hsplit := List.prefix_iff_eq_append.mp (fitting_isPrefix bufLen b.queue)
  rw [← hsplit] at hqueue
  obtain ⟨k, hk, hcarries, hfirst⟩ := hqueue.split
  refine ⟨k, hk, ?_, ?_, hlt, fun hpos => if_pos ⟨hpc, hpos, hk⟩⟩
  · rw [hcalls, hfirst]
  · rw [hrest]
    exact hcarries

/-- The daemon of an empty system with two events in its queue. -/
def twoEvents : State where
  fs := FileTree.empty
  watches := [[]]
  queue := [⟨.create, [], ascii "a"⟩, ⟨.modify, [], ascii "seventeen letters"⟩]
  now := 0
  pc := .batch []

/-- A watch is gone (`IN_IGNORED`), which the daemon did not ask for. -/
def ignored : Record where
  wd := 1
  mask := 0x8000
  cookie := 0
  name := []
  plain := by decide
  short := by decide
  named := fun h => absurd (by decide) h

/-- The daemon of "/", which writes to "/d". -/
def rootConfig : Config where
  cwd := []
  dumpText := ascii "/d"
  dumpDir := [ascii "d"]
  localtime := fun second => ⟨124, 0, 1, 0, 0, second⟩
  diff := fun _ b => b

theorem read_refines_twoEvents :
    ∃ b', Buffer.pass ⟨[createdA, ignored, modifiedLong], [], []⟩ = some b' ∧
      b'.calls = twoEvents.queue.map Event.call ∧ b'.queue = [] ∧
      step rootConfig twoEvents (.read 2) =
        some { twoEvents with pc := .batch twoEvents.queue, queue := [] } := by
  have hcarries : Carries twoEvents.queue [createdA, ignored, modifiedLong] :=
    .event (by decide) (by decide) (.other (by decide) (.event (by decide) rfl .nil))
  obtain ⟨b', hb⟩ : ∃ b', Buffer.pass ⟨[createdA, ignored, modifiedLong], [], []⟩ = some b' :=
    ⟨_, rfl⟩
  have hempty : b'.queue = [] := by
    have hfits : (fitting bufLen [createdA, ignored, modifiedLong]).length = 3 := by
      decide +kernel
    rw [(Buffer.pass_eq_some hb).1, hfits]
    rfl
  obtain ⟨k, hk, hcalls, hrest, -, hread⟩ := @read_refines rootConfig twoEvents _ b' rfl hcarries hb
  have hall : k = 2 := by
    have hlen : twoEvents.queue.length = 2 := rfl
    rw [hempty] at hrest
    have hnone : twoEvents.queue.drop k = [] := by
      cases hd : twoEvents.queue.drop k with
      | nil => rfl
      | cons ev evs =>
        rw [hd] at hrest
        cases hrest
    have hdrop := List.drop_eq_nil_iff.mp hnone
    omega
  subst hall
  exact ⟨b', hb, hcalls, hempty, hread (by decide)⟩

end OsTasks.Backup
