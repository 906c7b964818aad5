-- The objects of a conference: sources, sinks, streams, and the graph that joins
-- a source to its sinks. Each has a pointer, and other objects keep only that.
import ZonekeyMcu.Fault
import ZonekeyMcu.Lib.Memory

open memory

namespace zonekey_mcu.members

abbrev Ptr := Nat

/-- What the world gives to a call: the time in milliseconds, the addresses of a
new socket, the objects that got an RTCP packet since the last turn, the lines that
are logged of these packets, and the packets that each session has received. -/
structure Env where
  now : Int
  ip : String
  rtp_port : Int
  rtcp_port : Int
  rtcp : Ptr → Bool
  rtcp_lines : List String
  packet_recv : Ptr → Nat

/-- A world where nothing happens. -/
def Env.still : Env where
  now := 0
  ip := "127.0.0.1"
  rtp_port := 5004
  rtcp_port := 5005
  rtcp _ := false
  rtcp_lines := []
  packet_recv _ := 0

/-- `SOURCE_TIMEOUT_SECONDS`, `SINK_TIMEOUT_SECONDS` and
`STREAM_TIMEOUT_SECONDS`, in milliseconds. -/
def TIMEOUT : Int := 60000

/-! ## Sources -/

structure Source where
  ptr : Ptr
  id_ : Int
  pt_ : Int
  desc_ : String
  death_ : Bool
  time_last_rtcp_ : Int

def Source.new (env : Env) (ptr : Ptr) (id pt : Int) (desc : String) : Source where
  ptr := ptr
  id_ := id
  pt_ := pt
  desc_ := desc
  death_ := false
  time_last_rtcp_ := env.now

def Source.source_id (s : Source) : Int := s.id_

def Source.payload_type (s : Source) : Int := s.pt_

def Source.desc (s : Source) : String := if s.desc_ = "" then "no desc" else s.desc_

/-- A death stays, and comes after a minute with no RTCP packet. -/
def Source.run (env : Env) (s : Source) : Source :=
  if s.death_ then s
  else
    let time_last_rtcp_ := if env.rtcp s.ptr then env.now else s.time_last_rtcp_
    { s with time_last_rtcp_, death_ := decide (env.now - time_last_rtcp_ > TIMEOUT) }

/-! ## Sinks -/

structure Sink where
  ptr : Ptr
  id_ : Int
  pt_ : Int
  desc_ : String
  who_ : String
  death_ : Bool
  time_last_rtcp_ : Int

def Sink.new (env : Env) (ptr : Ptr) (id pt : Int) (desc who : String) : Sink where
  ptr := ptr
  id_ := id
  pt_ := pt
  desc_ := desc
  who_ := who
  death_ := false
  time_last_rtcp_ := env.now

def Sink.sink_id (s : Sink) : Int := s.id_

def Sink.payload_type (s : Sink) : Int := s.pt_

def Sink.desc (s : Sink) : String := s.desc_

def Sink.run (env : Env) (s : Sink) : Sink :=
  if s.death_ then s
  else
    let time_last_rtcp_ := if env.rtcp s.ptr then env.now else s.time_last_rtcp_
    { s with time_last_rtcp_, death_ := decide (env.now - time_last_rtcp_ > TIMEOUT) }

/-! ## Streams -/

/-- `cid_` is the channel id. The constructor does not set it. -/
structure Stream where
  ptr : Ptr
  id_ : Int
  payload_ : Int
  cid_ : Nat
  desc_ : String
  support_sink : Bool
  support_publisher : Bool
  death_ : Bool
  last_check_stamp_ : Int
  packet_recved_ : Nat
  sinks_ : List Ptr

def Stream.new (env : Env) (ptr : Ptr) (id payload : Int) (desc : String)
    (support_sink support_publisher : Bool) : Stream where
  ptr := ptr
  id_ := id
  payload_ := payload
  cid_ := 0
  desc_ := desc
  support_sink := support_sink
  support_publisher := support_publisher
  death_ := false
  last_check_stamp_ := env.now
  packet_recved_ := 0
  sinks_ := []

def Stream.stream_id (s : Stream) : Int := s.id_

def Stream.payload_type (s : Stream) : Int := s.payload_

def Stream.desc (s : Stream) : String := s.desc_

def Stream.channel_id (s : Stream) : Nat := s.cid_

def Stream.set_channel_id (s : Stream) (cid : Nat) : Stream := { s with cid_ := cid }

def Stream.add_sink (s : Stream) (sink : Ptr) : Except Fault (Int × Stream) :=
  -- assert(support_publisher())
  if s.support_publisher then
    let sinks_ := s.sinks_ ++ [sink]
    .ok (sinks_.length, { s with sinks_ })
  else .error .assertFailed

def Stream.del_sink (s : Stream) (sink : Ptr) : Int × Stream :=
  if s.support_publisher then
    let sinks_ := s.sinks_.erase sink
    (sinks_.length, { s with sinks_ })
  else (-1, s)

/-- Whether no packet came since the last check, and the next check. -/
def Stream.is_timeout (s : Stream) (now : Int) (packet_recv : Nat) : Bool × Stream :=
  if now - s.last_check_stamp_ > TIMEOUT then
    if s.packet_recved_ = packet_recv then (true, s)
    else (false, { s with last_check_stamp_ := now, packet_recved_ := packet_recv })
  else (false, s)

def Stream.run (env : Env) (s : Stream) : Stream :=
  if s.death_ then s
  else
    let check := s.is_timeout env.now (env.packet_recv s.ptr)
    { check.2 with death_ := check.1 }

/-! ## Graphs -/

/-- The publisher of a source, and the sinks that it sends to. -/
structure Graph where
  ptr : Ptr
  id_ : Int
  source_ : Ptr
  sinks_ : List Ptr

def Graph.new (ptr : Ptr) (source : Source) (id : Int) : Graph where
  ptr := ptr
  id_ := id
  source_ := source.ptr
  sinks_ := []

def Graph.has_sink (g : Graph) (sink : Ptr) : Bool := decide (sink ∈ g.sinks_)

def Graph.add_sink (g : Graph) (sink : Ptr) : Except Fault (Int × Graph) :=
  -- assert(!has_sink(s))
  if g.has_sink sink then .error .assertFailed
  else
    let sinks_ := g.sinks_ ++ [sink]
    .ok (sinks_.length, { g with sinks_ })

def Graph.del_sink (g : Graph) (sink : Ptr) : Int × Graph :=
  if sink ∈ g.sinks_ then (1, { g with sinks_ := g.sinks_.erase sink }) else (0, g)

/-! ## What a turn leaves -/

@[simp] theorem source_run_ptr (env : Env) (s : Source) : (s.run env).ptr = s.ptr := by
  unfold Source.run
  split <;> rfl

@[simp] theorem source_run_id (env : Env) (s : Source) : (s.run env).id_ = s.id_ := by
  unfold Source.run
  split <;> rfl

@[simp] theorem sink_run_ptr (env : Env) (s : Sink) : (s.run env).ptr = s.ptr := by
  unfold Sink.run
  split <;> rfl

@[simp] theorem sink_run_id (env : Env) (s : Sink) : (s.run env).id_ = s.id_ := by
  unfold Sink.run
  split <;> rfl

theorem is_timeout_eq (s : Stream) (now : Int) (packet_recv : Nat) :
    ∃ last_check_stamp_ packet_recved_, (s.is_timeout now packet_recv).2 =
      { s with last_check_stamp_, packet_recved_ } := by
  unfold Stream.is_timeout
  split
  · split <;> exact ⟨_, _, rfl⟩
  · exact ⟨_, _, rfl⟩

/-- A turn changes only what a stream knows about its own packets. -/
theorem stream_run_eq (env : Env) (s : Stream) : ∃ death_ last_check_stamp_ packet_recved_,
    s.run env = { s with death_, last_check_stamp_, packet_recved_ } := by
  unfold Stream.run
  split
  · exact ⟨_, _, _, rfl⟩
  · obtain ⟨a, b, heq⟩ := is_timeout_eq s env.now (env.packet_recv s.ptr)
    simp only [heq]
    exact ⟨_, _, _, rfl⟩

@[simp] theorem stream_run_ptr (env : Env) (s : Stream) : (s.run env).ptr = s.ptr := by
  obtain ⟨_, _, _, heq⟩ := stream_run_eq env s
  rw [heq]

@[simp] theorem stream_run_id (env : Env) (s : Stream) : (s.run env).id_ = s.id_ := by
  obtain ⟨_, _, _, heq⟩ := stream_run_eq env s
  rw [heq]

@[simp] theorem stream_run_sinks (env : Env) (s : Stream) : (s.run env).sinks_ = s.sinks_ := by
  obtain ⟨_, _, _, heq⟩ := stream_run_eq env s
  rw [heq]

@[simp] theorem stream_run_publisher (env : Env) (s : Stream) :
    (s.run env).support_publisher = s.support_publisher := by
  obtain ⟨_, _, _, heq⟩ := stream_run_eq env s
  rw [heq]

/-- The sinks of a stream after one was taken out. -/
theorem stream_del_sink_eq (s : Stream) (sink : Ptr) :
    (s.del_sink sink).2 =
      { s with sinks_ := if s.support_publisher then s.sinks_.erase sink else s.sinks_ } := by
  unfold Stream.del_sink
  split <;> rfl

/-- The assert of `add_sink` holds for a stream with a publisher. -/
theorem stream_add_sink_eq {s : Stream} (h : s.support_publisher = true) (sink : Ptr) :
    s.add_sink sink =
      .ok ((s.sinks_ ++ [sink]).length, { s with sinks_ := s.sinks_ ++ [sink] }) := by
  unfold Stream.add_sink
  rw [if_pos h]

theorem graph_del_sink_eq (g : Graph) (sink : Ptr) :
    (g.del_sink sink).2 = { g with sinks_ := g.sinks_.erase sink } := by
  unfold Graph.del_sink
  split
  · rfl
  · rename_i h
    rw [List.erase_of_not_mem h]

end zonekey_mcu.members
