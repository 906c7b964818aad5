-- A conference: its sources, sinks and streams, and the commands on them. The two
-- classes differ in `add_sink`, `del_sink`, in the streams and in the destructor.
import ZonekeyMcu.DirectorFilters

open memory zonekey_mcu.members zonekey_mcu.options zonekey_mcu.director

namespace zonekey_mcu.conference

inductive ConferenceType
  | CT_FREE
  | CT_DIRECTOR
  deriving DecidableEq, Repr

/-- A pointer to an XMPP request that waits for its answer. -/
abbrev Token := Nat

/-- An object of the class `FreeConference` or `DirectorConference`. `mem` holds
its objects. A free conference has no filters of its own, and never uses the
field. -/
structure Conference where
  type : ConferenceType
  cid_ : Int
  desc_ : String
  sid_ : Int
  sink_id_ : Int
  stream_id_ : Int
  idle_ : Bool
  stamp_idle_ : Int
  sources_ : List Source
  sinks_ : List Sink
  streams_ : List Stream
  graphics_ : List Graph
  reg_notify_tokens_ : List (String × List Token)
  filters : Filters
  mem : Memory

def Conference.new (type : ConferenceType) (env : Env) (want_alpha : Nat → Int) (id : Int) :
    Conference where
  type := type
  cid_ := id
  desc_ := ""
  sid_ := 1
  sink_id_ := 0
  stream_id_ := 2
  idle_ := false
  stamp_idle_ := env.now
  sources_ := []
  sinks_ := []
  streams_ := []
  graphics_ := []
  reg_notify_tokens_ := []
  filters := Filters.new want_alpha
  mem := Memory.new

def Conference.set_desc (c : Conference) (desc : String) : Conference := { c with desc_ := desc }

/-- What a command gives: the return code, the answer, and the conference. -/
abbrev Result := Except Fault (Int × KVS × Conference)

/-! ## Searches -/

/-- `(sid % 2) == 1`, where the remainder of a negative number is negative. -/
def is_source_id (sid : Int) : Bool := sid.tmod 2 = 1

def Conference.find_source (c : Conference) (sid : Int) : Except Fault (Option Source) :=
  c.mem.find .useAfterDelete Source.ptr (fun s => s.source_id = sid) c.sources_

def Conference.find_stream (c : Conference) (sid : Int) : Except Fault (Option Stream) :=
  c.mem.find .useAfterDelete Stream.ptr (fun s => s.stream_id = sid) c.streams_

def Conference.find_graph (c : Conference) (id : Int) : Except Fault (Option Graph) :=
  c.mem.find .useAfterDelete Graph.ptr (fun g => g.id_ = id) c.graphics_

/-- `delete` of an object of the conference. -/
def Conference.delete (c : Conference) (p : Ptr) : Except Fault Conference := do
  let mem ← c.mem.delete .doubleDelete p
  return { c with mem }

/-- A change of the graph at `p`. -/
def Conference.set_graph (c : Conference) (p : Ptr) (f : Graph → Graph) : Conference :=
  { c with graphics_ := c.graphics_.map fun g => if g.ptr = p then f g else g }

/-- A change of the stream at `p`. -/
def Conference.set_stream (c : Conference) (p : Ptr) (f : Stream → Stream) : Conference :=
  { c with streams_ := c.streams_.map fun s => if s.ptr = p then f s else s }

/-! ## The methods that a class overrides -/

/-- `add_source`, the same in both classes. -/
def Conference.add_source (c : Conference) (s : Source) : Int × Conference :=
  let (p, mem) := c.mem.alloc
  (0, { c with mem, graphics_ := c.graphics_ ++ [Graph.new p s s.source_id] })

/-- `del_source`, the same in both classes. -/
def Conference.del_source (c : Conference) (s : Source) : Except Fault (Int × Conference) := do
  let g ← c.mem.find .useAfterDelete Graph.ptr (fun g => g.source_ = s.ptr) c.graphics_
  match g with
  | some g =>
    let c := { c with graphics_ := c.graphics_.eraseP fun g => g.source_ = s.ptr }
    let c ← c.delete g.ptr
    return (0, c)
  | none => return (-1, c)

/-- The sink is added to the graph of source `sid`. -/
def Conference.add_sink_to_source (c : Conference) (sid : Int) (s : Sink) :
    Except Fault (Int × Conference) := do
  let source ← c.find_source sid
  -- assert(find_source(sid) != 0)
  if source.isNone then .error .assertFailed
  else
    let g ← c.find_graph sid
    match g with
    | none => return (-1, c)
    | some g =>
      let (_, g') ← g.add_sink s.ptr
      return (0, c.set_graph g.ptr fun _ => g')

def Conference.free_add_sink (c : Conference) (sid : Int) (s : Sink) :
    Except Fault (Int × Conference) :=
  -- assert(is_source_id(sid))
  if is_source_id sid then c.add_sink_to_source sid s else .error .assertFailed

/-- A sink with `sid` -1 gets the mix, from a publisher of the conference. -/
def Conference.director_add_sink (c : Conference) (sid : Int) (s : Sink) :
    Except Fault (Int × Conference) :=
  if sid = -1 then .ok (0, c)
  else if is_source_id sid then c.add_sink_to_source sid s
  else do
    let stream ← c.find_stream sid
    match stream with
    | none => return (-1, c)
    | some stream =>
      if stream.support_publisher then
        let (_, stream') ← stream.add_sink s.ptr
        return (0, c.set_stream stream.ptr fun _ => stream')
      else return (-1, c)

def Conference.add_sink (c : Conference) (sid : Int) (s : Sink) : Except Fault (Int × Conference) :=
  match c.type with
  | .CT_FREE => c.free_add_sink sid s
  | .CT_DIRECTOR => c.director_add_sink sid s

/-- The sink leaves the first graph that has it. -/
def Conference.free_del_sink (c : Conference) (s : Sink) : Except Fault (Int × Conference) := do
  let g ← c.mem.find .useAfterDelete Graph.ptr (fun g => g.has_sink s.ptr) c.graphics_
  match g with
  | some g => return (0, c.set_graph g.ptr fun g => (g.del_sink s.ptr).2)
  | none => return (-1, c)

/-- The sink also leaves all streams. -/
def Conference.director_del_sink (c : Conference) (s : Sink) :
    Except Fault (Int × Conference) := do
  let (_, c) ← c.free_del_sink s
  -- The loop goes over all streams, so the search has no hit.
  let _ ← c.mem.find .useAfterDelete Stream.ptr (fun _ => false) c.streams_
  return (0, { c with streams_ := c.streams_.map fun stream => (stream.del_sink s.ptr).2 })

def Conference.del_sink (c : Conference) (s : Sink) : Except Fault (Int × Conference) :=
  match c.type with
  | .CT_FREE => c.free_del_sink s
  | .CT_DIRECTOR => c.director_del_sink s

def Conference.add_stream (c : Conference) (s : Stream) (params : KVS) :
    Except Fault (Int × Stream × Conference) :=
  match c.type with
  | .CT_FREE => .error .assertFailed
  | .CT_DIRECTOR => do
    let (rc, s, filters) ← c.filters.add_stream s params
    return (rc, s, { c with filters })

def Conference.del_stream (c : Conference) (s : Stream) : Except Fault (Int × Conference) :=
  match c.type with
  | .CT_FREE => .error .assertFailed
  | .CT_DIRECTOR => do
    let (rc, filters) ← c.filters.del_stream s
    return (rc, { c with filters })

/-! ## Commands on sources -/

/-- The next value of `sid_`. -/
def next_sid (sid : Int) : Int := if sid + 2 ≥ 0x70000000 then 1 else sid + 2

/-- The answer that names a new object and its sockets. -/
def answer_of (env : Env) (key : String) (id : Int) (results : KVS) : KVS :=
  KVS.set "server_ip" env.ip (KVS.set "server_rtcp_port" (text_i env.rtcp_port)
    (KVS.set "server_rtp_port" (text_i env.rtp_port) (KVS.set key (text_i id) results)))

def Conference.addSource (c : Conference) (env : Env) (params results : KVS) : Result :=
  if chk_params params ["payload"] ≠ none then .ok (-1, results, c)
  else
    let payload := param_i params "payload"
    let desc := param_or_empty params "desc"
    if payload ≠ 100 ∧ payload ≠ 110 then .ok (-1, results, c)
    else do
      let (p, mem) := c.mem.alloc
      let source := Source.new env p c.sid_ payload desc
      let (rc, c) := Conference.add_source { c with mem } source
      if rc < 0 then
        let c ← c.delete source.ptr
        return (rc, results, c)
      else
        return (0, answer_of env "sid" source.source_id results,
          { c with sources_ := c.sources_ ++ [source], sid_ := next_sid c.sid_ })

def Conference.delSource (c : Conference) (params results : KVS) : Result :=
  if chk_params params ["sid"] ≠ none then .ok (-1, results, c)
  else do
    let id := param_i params "sid"
    let s ← c.find_source id
    match s with
    | some s =>
      let c := { c with sources_ := c.sources_.eraseP fun s => s.source_id = id }
      let (_, c) ← c.del_source s
      let c ← c.delete s.ptr
      return (0, results, c)
    | none => return (-1, results, c)

/-! ## Commands on sinks -/

/-- The next value of `sink_id_`, and the id of the next sink. -/
def next_sink_id (sink_id : Int) : Int := if sink_id + 1 > 0x70000000 then 0 else sink_id + 1

/-- The payload of a new sink: that of its source or stream, or the one that the
command gives. There is none when the source or the stream is not found. -/
def Conference.sink_payload (c : Conference) (params : KVS) : Except Fault (Option Int) := do
  let sid := param_i params "sid"
  let payload := if chk_params params ["payload"] = none then param_i params "payload" else -1
  let of_source := do
    let source ← c.find_source sid
    return source.map Source.payload_type
  match c.type with
  | .CT_FREE => of_source
  | .CT_DIRECTOR =>
    if payload = -1 then
      if is_source_id sid then of_source
      else
        let stream ← c.find_stream sid
        return stream.map Stream.payload_type
    else return some payload

/-- The payloads that have a class of sinks. -/
def is_sink_payload (payload : Int) : Bool := payload = 100 ∨ payload = 110 ∨ payload = 102

def Conference.addSink (c : Conference) (env : Env) (params results : KVS) : Result :=
  if chk_params params ["sid"] ≠ none then .ok (-1, results, c)
  else do
    let sid := param_i params "sid"
    let payload ← c.sink_payload params
    match payload with
    | none => return (-1, results, c)
    | some payload =>
      let desc := param_or_empty params "desc"
      let who := param_or_empty params "who"
      -- The counter goes on also when the command fails below.
      let c := { c with sink_id_ := next_sink_id c.sink_id_ }
      if !is_sink_payload payload then
        return (-1, KVS.set "info" "NOT support payload type" results, c)
      else
        let (p, mem) := c.mem.alloc
        let sink := Sink.new env p c.sink_id_ payload desc who
        let (rc, c) ← Conference.add_sink { c with mem } sid sink
        if rc < 0 then
          let c ← c.delete sink.ptr
          return (-1, results, c)
        else
          return (0, answer_of env "sinkid" sink.sink_id results,
            { c with sinks_ := c.sinks_ ++ [sink] })

def Conference.delSink (c : Conference) (params results : KVS) : Result :=
  if chk_params params ["sinkid"] ≠ none then .ok (-1, results, c)
  else do
    let id := param_i params "sinkid"
    let sink ← c.mem.find .useAfterDelete Sink.ptr (fun s => s.sink_id = id) c.sinks_
    match sink with
    | some sink =>
      let c := { c with sinks_ := c.sinks_.eraseP fun s => s.sink_id = id }
      let (_, c) ← c.del_sink sink
      let c ← c.delete sink.ptr
      return (0, results, c)
    | none => return (-1, results, c)

/-! ## Commands on streams -/

def next_stream_id (stream_id : Int) : Int :=
  if stream_id + 2 ≥ 0x7f000000 then 0 else stream_id + 2

def is_stream_payload (payload : Int) : Bool :=
  payload = 100 ∨ payload = 110 ∨ payload = 0 ∨ payload = 102

/-- The constructors of the classes of streams. That of `SpeexStream` calls a
method of its encoder, which is 0 with no sink. -/
def makeStream (env : Env) (p : Ptr) (payload stream_id : Int) (desc : String)
    (sink publisher : Bool) : Except Fault Stream :=
  if payload = 110 ∧ ¬ sink then .error .nullFilter
  else .ok (Stream.new env p stream_id payload desc sink publisher)

/-- The part that is common to the two commands. -/
def Conference.addStreamOf (c : Conference) (env : Env) (payload : Int) (desc : String)
    (sink publisher : Bool) (params results : KVS) : Result := do
  let (p, mem) := c.mem.alloc
  let stream ← makeStream env p payload c.stream_id_ desc sink publisher
  let (rc, stream, c) ← Conference.add_stream { c with mem } stream params
  if rc < 0 then
    let c ← c.delete stream.ptr
    return (-1, results, c)
  else
    return (0, answer_of env "streamid" stream.stream_id results,
      { c with streams_ := c.streams_ ++ [stream], stream_id_ := next_stream_id c.stream_id_ })

/-- The two commands: streams with a sink, and streams with a publisher. -/
def Conference.addStreamWith (c : Conference) (env : Env) (sink publisher : Bool)
    (params results : KVS) : Result :=
  -- assert(type() == CT_DIRECTOR)
  if c.type ≠ .CT_DIRECTOR then .error .assertFailed
  else if chk_params params ["payload"] ≠ none then .ok (-1, results, c)
  else
    let payload := param_i params "payload"
    let desc := param_or_empty params "desc"
    if !is_stream_payload payload then .ok (-1, results, c)
    else c.addStreamOf env payload desc sink publisher params results

def Conference.addStream (c : Conference) (env : Env) (params results : KVS) : Result :=
  c.addStreamWith env true false params results

def Conference.addStreamWithPublisher (c : Conference) (env : Env) (params results : KVS) :
    Result :=
  c.addStreamWith env false true params results

def Conference.delStream (c : Conference) (params results : KVS) : Result :=
  if chk_params params ["streamid"] ≠ none then .ok (-1, results, c)
  else do
    let id := param_i params "streamid"
    let s ← c.find_stream id
    match s with
    | some s =>
      let c := { c with streams_ := c.streams_.eraseP fun s => s.stream_id = id }
      let (_, c) ← c.del_stream s
      let c ← c.delete s.ptr
      return (0, results, c)
    | none => return (-1, results, c)

/-! ## Descriptions -/

structure SourceDescription where
  sid : Int
  desc : String
  payload : Int
  deriving DecidableEq

def source_description (s : Source) : SourceDescription where
  sid := s.source_id
  desc := s.desc
  payload := s.payload_type

/-- A payload of -1 takes every source. -/
def Conference.get_source_descriptions (c : Conference) (payload : Int) :
    List SourceDescription :=
  (c.sources_.filter fun s => payload = -1 ∨ payload = s.payload_type).map source_description

end zonekey_mcu.conference
