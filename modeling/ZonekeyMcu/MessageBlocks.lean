-- The message blocks of the RTP library (str_utils.c). A block looks at a part of a data
-- buffer, several blocks can share one buffer, and a message is a chain of blocks. A buffer
-- ends with the last block that looks at it.
import ZonekeyMcu.Fault
import ZonekeyMcu.Lib.Raster
import ZonekeyMcu.Lib.RefCounts

open memory raster ref_counts

namespace zonekey_mcu.message_blocks

/-! ## The memory -/

/-- Where a buffer is. `freeb` and `dupb` leave a block alone whose buffer is at NULL, but no
buffer is there. -/
abbrev Address := { base : Nat // base ≠ 0 }

/-- An address as `malloc` gives it: all that is looked at is that 4 divides it. -/
def aligned : Address := ⟨4, by decide⟩

/-- `db_base` is the address of the buffer, which the padding looks at. What nobody wrote yet
reads as 0. -/
structure Dblk where
  db_base : Address
  buffer : List UInt8
  db_freefn : Bool

/-- `b_rptr` and `b_wptr` count from the start of the buffer. -/
structure Mblk where
  b_cont : Option Nat
  b_datap : Nat
  b_rptr : Nat
  b_wptr : Nat
  reserved1 : UInt32
  reserved2 : UInt32

/-- `returned` are the data blocks whose buffers went back through `db_freefn`. -/
structure Blocks where
  datas : Heap Dblk
  mem : Memory
  mblk : Nat → Mblk
  returned : List Nat

def mblk_init (datap : Nat) : Mblk where
  b_cont := none
  b_datap := datap
  b_rptr := 0
  b_wptr := 0
  reserved1 := 0
  reserved2 := 0

def no_blocks : Blocks where
  datas := .empty ⟨aligned, [], false⟩
  mem := .new
  mblk := fun _ => mblk_init 0
  returned := []

def Blocks.read (b : Blocks) (mp : Nat) : Except Fault Mblk :=
  if mp < b.mem.next ∧ mp ∉ b.mem.deleted then .ok (b.mblk mp) else .error .useAfterDelete

def Blocks.set (b : Blocks) (mp : Nat) (m : Mblk) : Blocks := { b with mblk := put b.mblk mp m }

/-- `malloc` of a block. -/
def Blocks.make (b : Blocks) (m : Mblk) : Nat × Blocks :=
  (b.mem.next, { b with mem := b.mem.alloc.2, mblk := put b.mblk b.mem.next m })

/-! ## Data blocks -/

def datab_alloc (b : Blocks) (size : Nat) : Nat × Blocks :=
  (b.datas.mem.next,
    { b with datas := b.datas.make ⟨aligned, List.replicate size 0, false⟩ })

def datab_ref (b : Blocks) (d : Nat) : Except Fault Blocks := do
  let datas ← b.datas.addref .useAfterDelete d
  .ok { b with datas }

def datab_unref (b : Blocks) (d : Nat) : Except Fault Blocks := do
  let db ← b.datas.get .useAfterDelete d
  let datas ← b.datas.release .useAfterDelete d
  .ok { b with
    datas
    returned := if datas.ref d = 0 ∧ db.db_freefn then d :: b.returned else b.returned }

/-! ## One block -/

def allocb (b : Blocks) (size : Nat) : Nat × Blocks :=
  let (d, b) := datab_alloc b size
  b.make (mblk_init d)

/-- The buffer is the caller's, at the address `base`. -/
def esballoc (b : Blocks) (base : Address) (buf : List UInt8) (freefn : Bool) : Nat × Blocks :=
  Blocks.make { b with datas := b.datas.make ⟨base, buf, freefn⟩ } (mblk_init b.datas.mem.next)

def freeb (b : Blocks) (mp : Nat) : Except Fault Blocks := do
  let m ← b.read mp
  let b ← datab_unref b m.b_datap
  let mem ← b.mem.delete .doubleDelete mp
  .ok { b with mem }

def dupb (b : Blocks) (mp : Nat) : Except Fault (Nat × Blocks) := do
  let m ← b.read mp
  let b ← datab_ref b m.b_datap
  .ok (b.make { m with b_cont := none })

/-- What a reader sees between `b_rptr` and `b_wptr`. -/
def Blocks.bytes (b : Blocks) (m : Mblk) : Except Fault (List UInt8) := do
  let db ← b.datas.get .useAfterDelete m.b_datap
  if m.b_rptr ≤ m.b_wptr ∧ m.b_wptr ≤ db.buffer.length then
    .ok ((db.buffer.drop m.b_rptr).take (m.b_wptr - m.b_rptr))
  else .error .outOfBounds

/-- `memcpy` to `b_wptr`, which then moves over what was written. -/
def Blocks.write (b : Blocks) (mp : Nat) (data : List UInt8) : Except Fault Blocks := do
  let m ← b.read mp
  let db ← b.datas.get .useAfterDelete m.b_datap
  if m.b_wptr + data.length ≤ db.buffer.length then
    .ok { b with
      datas := b.datas.set m.b_datap { db with buffer := overwrite db.buffer m.b_wptr data }
      mblk := put b.mblk mp { m with b_wptr := m.b_wptr + data.length } }
  else .error .outOfBounds

def copyb (b : Blocks) (mp : Nat) : Except Fault (Nat × Blocks) := do
  let m ← b.read mp
  let data ← b.bytes m
  let (newm, b) := allocb b data.length
  let b ← b.write newm data
  .ok (newm, b)

/-! ## Messages

A walk along `b_cont` that makes more steps than there are blocks goes in a circle. -/

def freemsg_loop : Nat → Blocks → Option Nat → Except Fault Blocks
  | _, b, none => .ok b
  | 0, _, some _ => .error .neverReturns
  | fuel + 1, b, some mp => do
    let m ← b.read mp
    let b ← freeb b mp
    freemsg_loop fuel b m.b_cont

def freemsg (b : Blocks) (mp : Option Nat) : Except Fault Blocks :=
  freemsg_loop b.mem.next b mp

/-- The loop of `dupmsg` and of `copymsg`: each further block goes through `one`, and behind the
new block before it. -/
def clone_loop (one : Blocks → Nat → Except Fault (Nat × Blocks)) :
    Nat → Blocks → Nat → Option Nat → Except Fault Blocks
  | _, b, _, none => .ok b
  | 0, _, _, some _ => .error .neverReturns
  | fuel + 1, b, prev, some mp => do
    let (newm, b) ← one b mp
    let p ← b.read prev
    let b := b.set prev { p with b_cont := some newm }
    let m ← b.read mp
    clone_loop one fuel b newm m.b_cont

def clone (one : Blocks → Nat → Except Fault (Nat × Blocks)) (b : Blocks) (mp : Nat) :
    Except Fault (Nat × Blocks) := do
  let (newm, b') ← one b mp
  let m ← b'.read mp
  let b' ← clone_loop one b.mem.next b' newm m.b_cont
  .ok (newm, b')

def dupmsg : Blocks → Nat → Except Fault (Nat × Blocks) := clone dupb

def copymsg : Blocks → Nat → Except Fault (Nat × Blocks) := clone copyb

def msgdsize_loop (b : Blocks) : Nat → Option Nat → Except Fault Nat
  | _, none => .ok 0
  | 0, some _ => .error .neverReturns
  | fuel + 1, some mp => do
    let m ← b.read mp
    let size ← msgdsize_loop b fuel m.b_cont
    .ok (m.b_wptr - m.b_rptr + size)

def msgdsize (b : Blocks) (mp : Nat) : Except Fault Nat := msgdsize_loop b b.mem.next (some mp)

/-- `done` is what the loop has copied to the new buffer. -/
def msgpullup_loop (b : Blocks) (len : Nat) : Nat → List UInt8 → Option Nat →
    Except Fault (List UInt8)
  | 0, done, mp => if done.length < len ∧ mp.isSome then .error .neverReturns else .ok done
  | fuel + 1, done, mp =>
    if done.length < len then
      match mp with
      | none => .ok done
      | some mp => do
        let m ← b.read mp
        let data ← b.bytes m
        if data.length ≤ len - done.length then
          msgpullup_loop b len fuel (done ++ data) m.b_cont
        else msgpullup_loop b len fuel (done ++ data.take (len - done.length)) (some mp)
    else .ok done

/-- No length is the whole message (`len == -1`). -/
def pullup_len (b : Blocks) (mp : Nat) : Option Nat → Except Fault Nat
  | some len => .ok len
  | none => msgdsize b mp

def msgpullup (b : Blocks) (mp : Nat) (len : Option Nat) : Except Fault Blocks := do
  let m ← b.read mp
  if m.b_cont = none ∧ len = none then .ok b
  else do
    let len ← pullup_len b mp len
    let (db, b) := datab_alloc b len
    let done ← msgpullup_loop b len b.mem.next [] (some mp)
    let b := { b with
      datas := b.datas.set db ⟨aligned, overwrite (List.replicate len 0) 0 done, false⟩ }
    let b ← freemsg b m.b_cont
    let b ← datab_unref b m.b_datap
    .ok (b.set mp
      { m with b_cont := none, b_datap := db, b_rptr := 0, b_wptr := done.length })

/-- The end of the chain. -/
def last_block (b : Blocks) : Nat → Nat → Except Fault Nat
  | 0, _ => .error .neverReturns
  | fuel + 1, mp => do
    let m ← b.read mp
    match m.b_cont with
    | none => .ok mp
    | some mp => last_block b fuel mp

/-- The bytes up to the next address that 4 divides. -/
def padcnt (db : Dblk) (m : Mblk) (size : Nat) (pad : Bool) : Nat :=
  if pad then (4 - (db.db_base.val + m.b_wptr + size) % 4) % 4 else 0

/-- A new block is as large as the old one, or as the data, without its padding. -/
def appendb (b : Blocks) (mp : Nat) (data : List UInt8) (pad : Bool) :
    Except Fault (Nat × Blocks) := do
  let m ← b.read mp
  let db ← b.datas.get .useAfterDelete m.b_datap
  let padcnt := padcnt db m data.length pad
  let (mp, b) :=
    if db.buffer.length < m.b_wptr + data.length + padcnt then
      let (newm, b) := allocb b (max db.buffer.length data.length)
      (newm, b.set mp { m with b_cont := some newm })
    else (mp, b)
  let b ← b.write mp data
  let b ← b.write mp (List.replicate padcnt 0)
  .ok (mp, b)

def msgappend (b : Blocks) (mp : Nat) (data : List UInt8) (pad : Bool) : Except Fault Blocks := do
  let mp ← last_block b b.mem.next mp
  let (_, b) ← appendb b mp data pad
  .ok b

def concatb (b : Blocks) (mp newm : Nat) : Except Fault (Nat × Blocks) := do
  let mp ← last_block b b.mem.next mp
  let m ← b.read mp
  let b := b.set mp { m with b_cont := some newm }
  let newm ← last_block b b.mem.next newm
  .ok (newm, b)

/-! ## The allocator that uses blocks again -/

/-- The first block of the queue whose buffer nobody else looks at, and which is large enough. -/
def lookup (b : Blocks) (size : Nat) : List Nat → Except Fault (Option Nat)
  | [] => .ok none
  | mp :: q => do
    let m ← b.read mp
    let db ← b.datas.get .useAfterDelete m.b_datap
    if b.datas.ref m.b_datap = 1 ∧ size ≤ db.buffer.length then .ok (some mp)
    else lookup b size q

def msgb_allocator_alloc (b : Blocks) (q : List Nat) (size : Nat) :
    Except Fault (Nat × Blocks × List Nat) := do
  let found ← lookup b size q
  let (found, b, q) := match found with
    | some found => (found, b, q)
    | none =>
      let (found, b) := allocb b size
      (found, b, q ++ [found])
  let (newm, b) ← dupb b found
  .ok (newm, b, q)

/-- `flushq` frees the messages of the queue. -/
def flushq : Blocks → List Nat → Except Fault Blocks
  | b, [] => .ok b
  | b, mp :: q => do
    let b ← freemsg b (some mp)
    flushq b q

end zonekey_mcu.message_blocks
