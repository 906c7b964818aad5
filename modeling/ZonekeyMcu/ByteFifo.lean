-- The bufferizer over any calls. What its reads gave since the last flush, with the bytes that
-- are not yet read behind it, is what was put since then.
import ZonekeyMcu.Bufferizer
import ZonekeyMcu.Lib.Runs

namespace zonekey_mcu.bufferizer

open runs

/-! ## Calls -/

inductive Call
  | put (m : mblk_t)
  | read (datalen : Nat)
  | flush

/-- A bufferizer with the bytes that were put since the last flush, and the bytes that the
reads since then gave. -/
structure Session where
  obj : MSBufferizer
  written : Bytes
  returned : Bytes

def Session.start : Session where
  obj := ms_bufferizer_init
  written := []
  returned := []

def Session.call (s : Session) : Call → Except Fault Session
  | .put m => .ok { s with
      obj := ms_bufferizer_put s.obj m
      written := s.written ++ m.bytes }
  | .read datalen => do
    let (_, data, obj) ← ms_bufferizer_read s.obj datalen
    return { s with
      obj := obj
      returned := s.returned ++ data }
  | .flush => .ok { obj := ms_bufferizer_flush s.obj, written := [], returned := [] }

/-- The bufferizer holds what was put and not yet read. -/
def InStep (s : Session) : Prop :=
  ∃ unread, s.written = s.returned ++ unread ∧ Holds s.obj unread

/-! ## Reads of any length -/

/-- A read gives `datalen` bytes, if there are so many, and else it changes nothing. -/
structure ReadsLike (obj : MSBufferizer) (unread : Bytes) (datalen : Nat) : Prop where
  enough : datalen ≤ unread.length → ∃ obj',
    ms_bufferizer_read obj datalen = .ok (datalen, unread.take datalen, obj') ∧
      Holds obj' (unread.drop datalen)
  too_few : unread.length < datalen → ms_bufferizer_read obj datalen = .ok (0, [], obj)

theorem holds_reads {obj : MSBufferizer} {unread : Bytes} (h : Holds obj unread)
    (datalen : Nat) : ReadsLike obj unread datalen where
  enough := read_full h
  too_few := read_short h

/-! ## Runs -/

theorem start_in_step : InStep Session.start := ⟨[], rfl, init_holds⟩

theorem put_in_step {s : Session} (h : InStep s) (m : mblk_t) :
    ∃ t, s.call (.put m) = .ok t ∧ InStep t := by
  obtain ⟨unread, hwritten, hholds⟩ := h
  refine ⟨_, rfl, unread ++ m.bytes, ?_, put_holds hholds m⟩
  rw [hwritten, List.append_assoc]

theorem read_in_step {s : Session} (h : InStep s) (datalen : Nat) :
    ∃ t, s.call (.read datalen) = .ok t ∧ InStep t := by
  obtain ⟨unread, hwritten, hholds⟩ := h
  have hreads := holds_reads hholds datalen
  by_cases hlen : datalen ≤ unread.length
  · obtain ⟨obj, hread, hrest⟩ := hreads.enough hlen
    simp only [Session.call, hread, ok_bind]
    refine ⟨_, rfl, unread.drop datalen, ?_, hrest⟩
    rw [hwritten, List.append_assoc, List.take_append_drop]
  · simp only [Session.call, hreads.too_few (by omega), ok_bind]
    refine ⟨_, rfl, unread, ?_, hholds⟩
    rw [hwritten, List.append_nil]

/-- No call faults, and each keeps the bufferizer in step with what was put and read. -/
theorem call_in_step {s : Session} (h : InStep s) (c : Call) :
    ∃ t, s.call c = .ok t ∧ InStep t := by
  cases c with
  | put m => exact put_in_step h m
  | read datalen => exact read_in_step h datalen
  | flush => exact ⟨_, rfl, [], rfl, flush_holds s.obj⟩

/-- After any puts, reads and flushes, the bytes put since the last flush are those that the
reads gave, with the unread bytes behind them. The size counts the unread bytes, and the next
read of any length gives the first of them, or nothing when there are too few. -/
theorem the_bufferizer_is_a_byte_fifo (calls : List Call) :
    ∃ s, run Session.call Session.start calls = .ok s ∧
      ∃ unread, s.written = s.returned ++ unread ∧ s.obj.size = unread.length ∧
        queued s.obj.q = unread ∧ ∀ datalen, ReadsLike s.obj unread datalen := by
  obtain ⟨s, hrun, unread, hwritten, hholds⟩ :=
    run_goes_well (fun _ c h => call_in_step h c) start_in_step calls
  exact ⟨s, hrun, unread, hwritten, hholds.count, hholds.queue, holds_reads hholds⟩

/-- Empty blocks, two fragments, and reads across them. -/
example : (run Session.call Session.start
    [.put { data := [], b_cont := [] }, .put { data := [1, 2], b_cont := [[], [3]] }, .read 2,
      .put { data := [4], b_cont := [] }, .read 3, .read 1]).map
        (fun s => (s.written, s.returned, s.obj.size)) =
    .ok ([1, 2, 3, 4], [1, 2, 3], 1) := by decide

end zonekey_mcu.bufferizer
