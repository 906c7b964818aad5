-- The message queues and the bufferizer. A bufferizer takes whole messages and
-- gives any number of bytes: it is a first-in first-out list of bytes.
import ZonekeyMcu.Fault
import Mathlib.Algebra.GroupWithZero.Nat
import Mathlib.Data.List.Basic

namespace zonekey_mcu.bufferizer

/-! ## Messages -/

abbrev Bytes := List UInt8

/-- A message: the bytes between `b_rptr` and `b_wptr` of its first block, and
of the blocks that hang on `b_cont`. -/
structure mblk_t where
  data : Bytes
  b_cont : List Bytes

def mblk_t.bytes (m : mblk_t) : Bytes := m.data ++ m.b_cont.flatten

def msgdsize (m : mblk_t) : Nat := m.data.length + (m.b_cont.map List.length).sum

theorem msgdsize_eq (m : mblk_t) : msgdsize m = m.bytes.length := by
  simp [msgdsize, mblk_t.bytes, List.length_flatten]

/-- The messages of a queue, the first one at the head. -/
abbrev MSQueue := List mblk_t

def ms_queue_put (q : MSQueue) (m : mblk_t) : MSQueue := q ++ [m]

/-- All the bytes of a queue. -/
def queued (q : MSQueue) : Bytes := (q.map mblk_t.bytes).flatten

@[simp] theorem queued_nil : queued [] = [] := rfl

@[simp] theorem queued_cons (m : mblk_t) (q : MSQueue) : queued (m :: q) = m.bytes ++ queued q := by
  simp [queued]

@[simp] theorem queued_append (q r : MSQueue) : queued (q ++ r) = queued q ++ queued r := by
  simp [queued]

/-! ## The bufferizer -/

structure MSBufferizer where
  q : MSQueue
  size : Nat

def ms_bufferizer_init : MSBufferizer := { q := [], size := 0 }

def ms_bufferizer_put (obj : MSBufferizer) (m : mblk_t) : MSBufferizer where
  q := ms_queue_put obj.q m
  size := obj.size + msgdsize m

/-- The loop takes each message of `q`, until `q` is empty. -/
def ms_bufferizer_put_from_queue (obj : MSBufferizer) (q : MSQueue) : MSBufferizer :=
  q.foldl ms_bufferizer_put obj

/-- The turns of the read loop inside one message, which stands at block `b`:
the bytes copied, the bytes still wanted, and the message, unless all of it was
read. The blocks that were read stay in the message, empty. -/
def read_message : Nat → Bytes → List Bytes → Bytes × Nat × Option mblk_t
  | n, b, [] =>
    if n < b.length then (b.take n, 0, some { data := b.drop n, b_cont := [] })
    else (b, n - b.length, none)
  | n, b, c :: cs =>
    if n < b.length then (b.take n, 0, some { data := b.drop n, b_cont := c :: cs })
    else if n = b.length then (b, 0, some { data := [], b_cont := c :: cs })
    else
      let (bytes, rest, m) := read_message (n - b.length) c cs
      (b ++ bytes, rest, m.map fun m => { data := [], b_cont := m.data :: m.b_cont })

/-- The read loop. A read past the last message would go through a null
pointer. -/
def read_loop : Nat → MSQueue → Except Fault (Bytes × MSQueue)
  | 0, q => .ok ([], q)
  | _ + 1, [] => .error .outOfBounds
  | n + 1, m :: q => match read_message (n + 1) m.data m.b_cont with
    | (bytes, _, some m) => .ok (bytes, m :: q)
    | (bytes, rest, none) => (read_loop rest q).map fun r => (bytes ++ r.1, r.2)

/-- The number that the call returns, the bytes it writes to `data`, and the
bufferizer after it. -/
def ms_bufferizer_read (obj : MSBufferizer) (datalen : Nat) :
    Except Fault (Nat × Bytes × MSBufferizer) :=
  if datalen ≤ obj.size then
    match read_loop datalen obj.q with
    | .error e => .error e
    | .ok (data, q) => .ok (datalen, data, { q := q, size := obj.size - datalen })
  else .ok (0, [], obj)

def ms_bufferizer_get_avail (obj : MSBufferizer) : Nat := obj.size

def ms_bufferizer_flush (_ : MSBufferizer) : MSBufferizer := { q := [], size := 0 }

/-! ## The laws -/

/-- The bufferizer holds the bytes `xs`, in this order. -/
structure Holds (obj : MSBufferizer) (xs : Bytes) : Prop where
  queue : queued obj.q = xs
  count : obj.size = xs.length

theorem init_holds : Holds ms_bufferizer_init [] := ⟨rfl, rfl⟩

theorem put_holds {obj : MSBufferizer} {xs : Bytes} (h : Holds obj xs) (m : mblk_t) :
    Holds (ms_bufferizer_put obj m) (xs ++ m.bytes) := by
  constructor
  · simp [ms_bufferizer_put, ms_queue_put, h.queue]
  · simp [ms_bufferizer_put, h.count, msgdsize_eq]

theorem put_from_queue_holds {obj : MSBufferizer} {xs : Bytes} (h : Holds obj xs) (q : MSQueue) :
    Holds (ms_bufferizer_put_from_queue obj q) (xs ++ queued q) := by
  unfold ms_bufferizer_put_from_queue
  induction q generalizing obj xs with
  | nil => simpa using h
  | cons m q ih =>
    have := ih (put_holds h m)
    rwa [List.append_assoc, ← queued_cons] at this

/-- A read inside one message takes its first bytes, and keeps the others. -/
theorem read_message_spec (n : Nat) (b : Bytes) (cont : List Bytes) :
    (read_message n b cont).1 = (b ++ cont.flatten).take n ∧
    (match (read_message n b cont).2.2 with
      | some m => n ≤ (b ++ cont.flatten).length ∧ m.bytes = (b ++ cont.flatten).drop n
      | none => (b ++ cont.flatten).length ≤ n ∧
        (read_message n b cont).2.1 = n - (b ++ cont.flatten).length) := by
  induction cont generalizing n b with
  | nil =>
    unfold read_message
    split
    · rename_i h
      simp [mblk_t.bytes]
      omega
    · rename_i h
      have hle : b.length ≤ n := by omega
      simp [List.take_of_length_le hle, hle]
  | cons c cs ih =>
    unfold read_message
    split
    · rename_i h
      have hle : n ≤ b.length := by omega
      simp [mblk_t.bytes, List.take_append_of_le_length hle, List.drop_append_of_le_length hle]
      omega
    · split
      · rename_i h
        subst h
        simp [mblk_t.bytes]
      · rename_i hlt hne
        obtain ⟨htake, hrest⟩ := ih (n - b.length) c
        have hb : b.take n = b := List.take_of_length_le (by omega)
        have hd : b.drop n = [] := List.drop_of_length_le (by omega)
        refine ⟨?_, ?_⟩
        · simp only [List.flatten_cons]
          rw [List.take_append, hb, htake]
        · cases hm : (read_message (n - b.length) c cs).2.2 with
          | none =>
            simp only [hm] at hrest ⊢
            simp only [List.flatten_cons, List.length_append, Option.map_none] at hrest ⊢
            obtain ⟨hle, hr⟩ := hrest
            refine ⟨by omega, ?_⟩
            rw [hr, Nat.sub_sub]
          | some m =>
            simp only [hm] at hrest ⊢
            simp only [List.flatten_cons, List.length_append, Option.map_some] at hrest ⊢
            refine ⟨by omega, ?_⟩
            rw [List.drop_append, hd, ← hrest.2]
            simp [mblk_t.bytes]

/-- The loop gives the first bytes of the queue, when it has that many. -/
theorem read_loop_spec {n : Nat} {q : MSQueue} (h : n ≤ (queued q).length) :
    ∃ q', read_loop n q = .ok ((queued q).take n, q') ∧ queued q' = (queued q).drop n := by
  induction q generalizing n with
  | nil =>
    have hn : n = 0 := by simpa using h
    subst hn
    exact ⟨[], rfl, rfl⟩
  | cons m q ih =>
    cases n with
    | zero => exact ⟨m :: q, rfl, rfl⟩
    | succ n =>
      obtain ⟨htake, hrest⟩ := read_message_spec (n + 1) m.data m.b_cont
      unfold read_loop
      generalize read_message (n + 1) m.data m.b_cont = r at htake hrest ⊢
      obtain ⟨bytes, rest, om⟩ := r
      rw [queued_cons]
      change bytes = m.bytes.take (n + 1) at htake
      cases om with
      | some m' =>
        obtain ⟨hle, hdrop⟩ := hrest
        change n + 1 ≤ m.bytes.length at hle
        refine ⟨m' :: q, ?_, ?_⟩
        · rw [List.take_append_of_le_length hle, ← htake]
        · rw [queued_cons, List.drop_append_of_le_length hle, hdrop]
          rfl
      | none =>
        obtain ⟨hle, hr⟩ := hrest
        change m.bytes.length ≤ n + 1 at hle
        change rest = n + 1 - m.bytes.length at hr
        rw [queued_cons, List.length_append] at h
        obtain ⟨q', hq', hdrop⟩ := ih (n := rest) (by omega)
        refine ⟨q', ?_, ?_⟩
        · simp only [hq', Except.map]
          rw [htake, List.take_append, hr]
        · rw [List.drop_append, List.drop_of_length_le hle, List.nil_append, hdrop, hr]

/-- A read with enough bytes takes the oldest ones. -/
theorem read_full {obj : MSBufferizer} {xs : Bytes} (h : Holds obj xs) {n : Nat}
    (hn : n ≤ xs.length) :
    ∃ obj', ms_bufferizer_read obj n = .ok (n, xs.take n, obj') ∧ Holds obj' (xs.drop n) := by
  obtain ⟨q', hq', hdrop⟩ := read_loop_spec (n := n) (q := obj.q) (by rw [h.queue]; exact hn)
  refine ⟨{ q := q', size := obj.size - n }, ?_, ?_, ?_⟩
  · simp only [ms_bufferizer_read, h.count, hn, if_true, hq', h.queue]
  · rw [hdrop, h.queue]
  · rw [h.count, List.length_drop]

/-- A read with too few bytes takes none. -/
theorem read_short {obj : MSBufferizer} {xs : Bytes} (h : Holds obj xs) {n : Nat}
    (hn : xs.length < n) : ms_bufferizer_read obj n = .ok (0, [], obj) := by
  unfold ms_bufferizer_read
  rw [if_neg (by rw [h.count]; omega)]

theorem flush_holds (obj : MSBufferizer) : Holds (ms_bufferizer_flush obj) [] := ⟨rfl, rfl⟩

end zonekey_mcu.bufferizer
