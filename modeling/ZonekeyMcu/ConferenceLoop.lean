-- The turn of a conference in the server loop, and its end: members that died are
-- deleted, an idle conference is marked, and the destructor deletes the rest.
import ZonekeyMcu.DirectorParams

open memory zonekey_mcu.members zonekey_mcu.options zonekey_mcu.director

namespace zonekey_mcu.conference

/-- The 120 seconds after which an empty conference is idle. -/
def IDLE_TIMEOUT : Int := 120000

/-! ## One turn -/

section

variable {α : Type}

/-- A loop of `run_once` over the members of one kind: each is asked whether it
died. A dead one is taken out of the rest of the conference and deleted, and the
others take their turn. -/
def sweep (ptr : α → Ptr) (death : α → Bool) (run : α → α)
    (del : Conference → α → Except Fault (Int × Conference)) :
    List α → Conference → Except Fault (List α × Conference)
  | [], c => .ok ([], c)
  | x :: xs, c =>
    if ptr x ∈ c.mem.deleted then .error .useAfterDelete
    else if death x then do
      let (_, c) ← del c x
      let c ← c.delete (ptr x)
      sweep ptr death run del xs c
    else do
      let (xs, c) ← sweep ptr death run del xs c
      return (run x :: xs, c)

/-- A loop of a destructor: every member is taken out and deleted. -/
def delete_members (ptr : α → Ptr) (del : Conference → α → Except Fault (Int × Conference)) :
    List α → Conference → Except Fault Conference
  | [], c => .ok c
  | x :: xs, c => do
    let (_, c) ← del c x
    let c ← c.delete (ptr x)
    delete_members ptr del xs c

end

def Conference.sweep_sources (c : Conference) (env : Env) : Except Fault Conference := do
  let (sources_, c) ←
    sweep Source.ptr Source.death_ (Source.run env) Conference.del_source c.sources_ c
  return { c with sources_ }

def Conference.sweep_sinks (c : Conference) (env : Env) : Except Fault Conference := do
  let (sinks_, c) ← sweep Sink.ptr Sink.death_ (Sink.run env) Conference.del_sink c.sinks_ c
  return { c with sinks_ }

def Conference.sweep_streams (c : Conference) (env : Env) : Except Fault Conference := do
  let (streams_, c) ←
    sweep Stream.ptr Stream.death_ (Stream.run env) Conference.del_stream c.streams_ c
  return { c with streams_ }

/-- The end of `run_once`. The numbers are from before the members were swept. -/
def Conference.mark_idle (c : Conference) (env : Env) (n_sources n_streams : Nat) : Conference :=
  let idle := decide (n_sources = 0) && decide (n_streams = 0)
  let idle_ := if idle = true ∧ env.now - c.stamp_idle_ > IDLE_TIMEOUT then true else c.idle_
  { c with idle_, stamp_idle_ := if idle then c.stamp_idle_ else env.now }

def Conference.run_once (c : Conference) (env : Env) : Except Fault Conference := do
  let n_sources := c.sources_.length
  let c ← c.sweep_sources env
  let c ← c.sweep_sinks env
  let n_streams := c.streams_.length
  let c ← c.sweep_streams env
  return c.mark_idle env n_sources n_streams

def Conference.idle (c : Conference) : Bool := c.idle_

/-! ## The end -/

/-- The deletes of all graphs. The list still holds their pointers after it. -/
def Conference.delete_graphs (c : Conference) : Except Fault Conference := do
  let mem ← Memory.delete_all .doubleDelete (c.graphics_.map Graph.ptr) c.mem
  return { c with mem }

def Conference.delete_sinks (c : Conference) : Except Fault Conference := do
  let c ← delete_members Sink.ptr Conference.del_sink c.sinks_ c
  return { c with sinks_ := [] }

def Conference.delete_streams (c : Conference) : Except Fault Conference := do
  let c ← delete_members Stream.ptr Conference.del_stream c.streams_ c
  return { c with streams_ := [] }

def Conference.delete_sources (c : Conference) : Except Fault Conference := do
  let c ← delete_members Source.ptr Conference.del_source c.sources_ c
  return { c with sources_ := [] }

/-- `~FreeConference`. It does not clear `graphics_`. -/
def Conference.free_destructor (c : Conference) : Except Fault Conference := do
  let c ← c.delete_graphs
  let c ← c.delete_sinks
  c.delete_sources

/-- `~DirectorConference`. -/
def Conference.director_destructor (c : Conference) : Except Fault Conference := do
  let c ← c.delete_graphs
  let c := { c with graphics_ := [] }
  let c ← c.delete_sinks
  let c ← c.delete_streams
  c.delete_sources

/-- The delete of a conference: the memory it leaves, and the tokens that are
answered with `err`. -/
def Conference.destroy (c : Conference) : Except Fault (Memory × List Token) := do
  let c ← match c.type with
    | .CT_FREE => c.free_destructor
    | .CT_DIRECTOR => c.director_destructor
  return (c.mem, c.reg_notify_tokens_.flatMap (·.2))

/-! ## Any call -/

/-- A call that the server makes on a conference. -/
inductive Call
  | addSource (env : Env) (params : KVS)
  | delSource (params : KVS)
  | addSink (env : Env) (params : KVS)
  | delSink (params : KVS)
  | addStream (env : Env) (params : KVS)
  | addStreamWithPublisher (env : Env) (params : KVS)
  | delStream (params : KVS)
  | setParams (params : KVS)
  | vs_exchange_position (id1 id2 : Int)
  | run_once (env : Env)

/-- The return code and the state after a call with an empty answer. -/
def Conference.call (c : Conference) : Call → Except Fault (Int × Conference)
  | .addSource env params => (c.addSource env params []).map fun r => (r.1, r.2.2)
  | .delSource params => (c.delSource params []).map fun r => (r.1, r.2.2)
  | .addSink env params => (c.addSink env params []).map fun r => (r.1, r.2.2)
  | .delSink params => (c.delSink params []).map fun r => (r.1, r.2.2)
  | .addStream env params => (c.addStream env params []).map fun r => (r.1, r.2.2)
  | .addStreamWithPublisher env params =>
    (c.addStreamWithPublisher env params []).map fun r => (r.1, r.2.2)
  | .delStream params => (c.delStream params []).map fun r => (r.1, r.2.2)
  | .setParams params => (c.setParams params []).map fun r => (r.1, r.2.2)
  | .vs_exchange_position id1 id2 => c.vs_exchange_position id1 id2
  | .run_once env => (c.run_once env).map fun c => (0, c)

def step (c : Conference) (call : Call) : Except Fault Conference := (c.call call).map (·.2)

end zonekey_mcu.conference
