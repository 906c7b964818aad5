-- The commands that a client sends to the MCU over XMPP, and their answers. A command waits
-- in `mse_map` under its id. An answer runs the callback of its command and leaves the entry
-- in the map, so the same answer runs it again.
import ZonekeyMcu.Fault
import ZonekeyMcu.Options
import ZonekeyMcu.Lib.Runs
import ZonekeyMcu.Lib.Memory
import ZonekeyMcu.Lib.ListMoves
import Mathlib.Logic.Function.Basic

open runs memory zonekey_mcu.options

namespace zonekey_mcu.xmpp_commands

/-! ## The callbacks -/

/-- What can be registered with a command. The four functions of zkmcu_hlp free the block
that they are called with. -/
inductive mse_receive_rsp
  | zkmcu_create_cf_rsp
  | add_source_result
  | add_stream_result
  | add_sink_result
  | other (f : Nat)
  deriving DecidableEq, Repr

def mse_receive_rsp.frees : mse_receive_rsp → Bool
  | .other _ => false
  | _ => true

/-- A call with the block at `userdata`. The functions of zkmcu_hlp read it, then free it. -/
def mse_receive_rsp.call (cb : mse_receive_rsp) (mem : Memory) (userdata : Nat) :
    Except Fault Memory :=
  if cb.frees then
    if userdata ∈ mem.deleted then .error .useAfterDelete
    else mem.delete .doubleDelete userdata
  else .ok mem

structure mse_cmd_data where
  cb : mse_receive_rsp
  userdata : Nat
  deriving DecidableEq, Repr

/-! ## The user agent -/

/-- What a message handler reads of a stanza. `body` is the text of the child of that name. -/
structure Stanza where
  id : Option String
  type : Option String
  from_jid : Option String
  body : Option (Option String)
  deriving DecidableEq, Repr

/-- The four values that `sscanf` takes from the text of an answer. -/
structure Scanned where
  cmd_type : String
  msg_id : Int
  result : String
  option : String
  deriving DecidableEq, Repr

/-- The agent, and the counter of all agents. `conn` is whether it is logged in. `invoked` are
the blocks that a callback was called with, in order, and `mem` the blocks. -/
structure Agent where
  conn : Bool
  id_cb_map : List String
  mse_map : Int → Option mse_cmd_data
  unique_id : Int
  sent : List (String × String)
  mem : Memory
  invoked : List Nat

def Agent.new : Agent where
  conn := false
  id_cb_map := []
  mse_map := fun _ => none
  unique_id := 0
  sent := []
  mem := Memory.new
  invoked := []

/-- `++_unique_id` in 32 bits. -/
def next_unique_id (id : Int) : Int := if id = 2147483647 then -2147483648 else id + 1

def xmpp_ua_change_string (s : String) : String :=
  String.join (s.toList.map fun c =>
    if c = '&' then "&amp;" else if c = '>' then "&gt;" else if c = '<' then "&lt;"
    else String.singleton c)

def xmpp_ua_send (a : Agent) (remote_jid text : String) : Int × Agent :=
  if a.conn then (0, { a with sent := a.sent ++ [(remote_jid, text)] }) else (-1, a)

/-- The id of a command without a callback is -1. The callers of zkmcu_hlp make the block
`userdata` for this one command. -/
def xmpp_ua_mse_send_cmd (a : Agent) (remote_jid cmd option : String)
    (cb : Option mse_receive_rsp) : Int × Agent :=
  match cb with
  | none => xmpp_ua_send a remote_jid
      ("ReqCmd|" ++ text_i (-1) ++ "|" ++ cmd ++ "|" ++ xmpp_ua_change_string option)
  | some cb =>
    let (userdata, mem) := a.mem.alloc
    let cmd_id := next_unique_id a.unique_id
    xmpp_ua_send
      { a with
        mem := mem
        unique_id := cmd_id
        mse_map := Function.update a.mse_map cmd_id (some { cb := cb, userdata := userdata }) }
      remote_jid
      ("ReqCmd|" ++ text_i cmd_id ++ "|" ++ cmd ++ "|" ++ xmpp_ua_change_string option)

def xmpp_ua_id_handler_add (a : Agent) (id : String) : Agent :=
  { a with id_cb_map := if id ∈ a.id_cb_map then a.id_cb_map else id :: a.id_cb_map }

section

-- The format ends inside its last conversion, so what `sscanf` makes of a text is not known.
variable (scan : String → Option Scanned)

/-- The text of a chat message with a sender. -/
def chat_text (s : Stanza) : Option String :=
  if s.type = some "chat" then s.from_jid.bind fun _ => s.body.bind id else none

/-- The id that an answer names. -/
def ack_id (s : Stanza) : Option Int :=
  ((chat_text s).bind scan).bind fun r => if r.cmd_type = "AckCmd" then some r.msg_id else none

/-- The answer runs the callback of its command. The entry stays in the map. -/
def zkmse_receive_rsp (a : Agent) (s : Stanza) : Except Fault (Int × Agent) :=
  match ack_id scan s with
  | none => .ok (0, a)
  | some msg_id => match a.mse_map msg_id with
    | none => .ok (0, a)
    | some data => (data.cb.call a.mem data.userdata).map fun mem =>
      (1, { a with mem := mem, invoked := a.invoked ++ [data.userdata] })

/-- The handler of an id comes first, and runs once. The first one of the message list is
`_zkmse_receive_rsp`. -/
def cb_mesage (a : Agent) (s : Stanza) : Except Fault Agent :=
  if !a.conn then .ok a
  else match s.id.filter (· ∈ a.id_cb_map) with
    | some id => .ok { a with id_cb_map := a.id_cb_map.erase id }
    | none => (zkmse_receive_rsp scan a s).map Prod.snd

inductive Action
  | login
  | logout
  | id_handler_add (id : String)
  | send_cmd (remote_jid cmd option : String) (cb : Option mse_receive_rsp)
  | message (s : Stanza)

def step (a : Agent) : Action → Except Fault Agent
  | .login => .ok { a with conn := true }
  | .logout => .ok { a with conn := false }
  | .id_handler_add id => .ok (xmpp_ua_id_handler_add a id)
  | .send_cmd remote_jid cmd option cb => .ok (xmpp_ua_mse_send_cmd a remote_jid cmd option cb).2
  | .message s => cb_mesage scan a s

/-! ## At most once -/

/-- No callback ran twice for one command. -/
def Agent.Once (a : Agent) : Prop := a.invoked.Nodup

/-- The command that the message answers: the message comes to the handler of the answers,
and its id is in the map. -/
def Agent.answered (a : Agent) (s : Stanza) : Option mse_cmd_data :=
  if a.conn = true ∧ s.id.filter (· ∈ a.id_cb_map) = none then (ack_id scan s).bind a.mse_map
  else none

/-- The message answers no command that was answered before. -/
def Agent.first_answer (a : Agent) : Action → Prop
  | .message s => ∀ data, a.answered scan s = some data → data.userdata ∉ a.invoked
  | _ => True

/-- Only blocks that were called with are freed, and all blocks were given out. -/
structure Sound (a : Agent) : Prop where
  once : a.Once
  freed : ∀ p ∈ a.mem.deleted, p ∈ a.invoked
  invoked : ∀ p ∈ a.invoked, p < a.mem.next
  waiting : ∀ id data, a.mse_map id = some data → data.userdata < a.mem.next

variable {scan} {a : Agent}

theorem sound_new : Sound Agent.new :=
  ⟨List.nodup_nil, by simp [Agent.new, Memory.new], by simp [Agent.new], by simp [Agent.new]⟩

/-! ## Each action -/

theorem send_invariant (remote_jid text : String) (h : Sound a) :
    Sound (xmpp_ua_send a remote_jid text).2 := by
  unfold xmpp_ua_send
  split
  · exact ⟨h.once, h.freed, h.invoked, h.waiting⟩
  · exact h

theorem send_cmd_sound (remote_jid cmd option : String) (cb : Option mse_receive_rsp)
    (h : Sound a) : Sound (xmpp_ua_mse_send_cmd a remote_jid cmd option cb).2 := by
  unfold xmpp_ua_mse_send_cmd
  cases cb with
  | none => exact send_invariant _ _ h
  | some cb =>
    refine send_invariant _ _ ⟨h.once, h.freed, fun p hp => Nat.lt_succ_of_lt (h.invoked p hp),
      fun id data hdata => ?_⟩
    change data.userdata < a.mem.next + 1
    dsimp only at hdata
    by_cases hid : id = next_unique_id a.unique_id
    · rw [hid, Function.update_self] at hdata
      cases hdata
      exact Nat.lt_succ_self a.mem.next
    · rw [Function.update_of_ne hid] at hdata
      exact Nat.lt_succ_of_lt (h.waiting id data hdata)

/-- A callback that runs on a live block frees at most that block. -/
theorem call_alive (cb : mse_receive_rsp) {mem : Memory} {userdata : Nat}
    (h : userdata ∉ mem.deleted) : ∃ mem', cb.call mem userdata = .ok mem' ∧
      mem'.next = mem.next ∧ ∀ p ∈ mem'.deleted, p = userdata ∨ p ∈ mem.deleted := by
  unfold mse_receive_rsp.call
  cases cb.frees with
  | false => exact ⟨mem, by simp, rfl, fun p hp => .inr hp⟩
  | true =>
    refine ⟨{ mem with deleted := userdata :: mem.deleted }, ?_, rfl, fun p hp => by simpa using hp⟩
    simp [Memory.delete, h]

/-- A message that does not come to the message list. -/
theorem cb_mesage_aside (scan : String → Option Scanned) {s : Stanza}
    (h : ¬ (a.conn = true ∧ s.id.filter (· ∈ a.id_cb_map) = none)) :
    ∃ ids, cb_mesage scan a s = .ok { a with id_cb_map := ids } := by
  unfold cb_mesage
  split
  · exact ⟨a.id_cb_map, rfl⟩
  · rename_i hconn
    cases hid : s.id.filter (· ∈ a.id_cb_map) with
    | some id => exact ⟨_, rfl⟩
    | none => exact absurd ⟨by simpa using hconn, hid⟩ h

theorem cb_mesage_list (scan : String → Option Scanned) {s : Stanza} (hconn : a.conn = true)
    (hid : s.id.filter (· ∈ a.id_cb_map) = none) :
    cb_mesage scan a s = (zkmse_receive_rsp scan a s).map Prod.snd := by
  unfold cb_mesage
  rw [if_neg (by simp [hconn]), hid]

theorem cb_mesage_answers {s : Stanza} {msg_id : Int} {data : mse_cmd_data}
    (hconn : a.conn = true) (hid : s.id = none) (hack : ack_id scan s = some msg_id)
    (hmap : a.mse_map msg_id = some data) :
    cb_mesage scan a s = (data.cb.call a.mem data.userdata).map fun mem =>
      { a with mem := mem, invoked := a.invoked ++ [data.userdata] } := by
  rw [cb_mesage_list scan hconn (by rw [hid]; rfl)]
  unfold zkmse_receive_rsp
  simp only [hack, hmap]
  cases data.cb.call a.mem data.userdata <;> rfl

/-- A message runs no callback, or the one of the command that it answers. -/
theorem cb_mesage_cases (scan : String → Option Scanned) (a : Agent) (s : Stanza) :
    (a.answered scan s = none ∧ ∃ ids, cb_mesage scan a s = .ok { a with id_cb_map := ids }) ∨
    ∃ data, a.answered scan s = some data ∧ (∃ id, a.mse_map id = some data) ∧
      cb_mesage scan a s = (data.cb.call a.mem data.userdata).map fun mem =>
        { a with mem := mem, invoked := a.invoked ++ [data.userdata] } := by
  by_cases h : a.conn = true ∧ s.id.filter (· ∈ a.id_cb_map) = none
  · have hanswered : a.answered scan s = (ack_id scan s).bind a.mse_map := if_pos h
    rw [hanswered, cb_mesage_list scan h.1 h.2]
    unfold zkmse_receive_rsp
    cases hack : ack_id scan s with
    | none => exact .inl ⟨rfl, a.id_cb_map, rfl⟩
    | some msg_id =>
      cases hmap : a.mse_map msg_id with
      | none => exact .inl ⟨hmap, a.id_cb_map, by simp only [hmap]; rfl⟩
      | some data =>
        refine .inr ⟨data, hmap, ⟨msg_id, hmap⟩, ?_⟩
        simp only [hmap]
        cases data.cb.call a.mem data.userdata <;> rfl
  · exact .inl ⟨if_neg h, cb_mesage_aside scan h⟩

theorem message_sound {s : Stanza} (h : Sound a)
    (hfirst : a.first_answer scan (.message s)) :
    ∃ a', cb_mesage scan a s = .ok a' ∧ Sound a' := by
  rcases cb_mesage_cases scan a s with ⟨-, ids, hok⟩ | ⟨data, hanswer, ⟨id, hmap⟩, heq⟩
  · exact ⟨_, hok, h.once, h.freed, h.invoked, h.waiting⟩
  · have hnew : data.userdata ∉ a.invoked := hfirst data hanswer
    obtain ⟨mem, hcall, hnext, hfreed⟩ := call_alive data.cb fun hd => hnew (h.freed _ hd)
    refine ⟨_, by rw [heq, hcall]; rfl, ?_, ?_, ?_, ?_⟩
    · exact list_moves.nodup_append_one h.once hnew
    · intro p hp
      rcases hfreed p hp with rfl | hp
      · exact List.mem_append_right _ List.mem_cons_self
      · exact List.mem_append_left _ (h.freed p hp)
    · intro p hp
      change p < mem.next
      rw [hnext]
      rcases List.mem_append.mp hp with hp | hp
      · exact h.invoked p hp
      · rw [List.mem_singleton.mp hp]
        exact h.waiting id data hmap
    · intro j d hd
      change d.userdata < mem.next
      rw [hnext]
      exact h.waiting j d hd

theorem first_answer_sound (a : Agent) (act : Action) (h : Sound a)
    (hfirst : a.first_answer scan act) : ∃ a', step scan a act = .ok a' ∧ Sound a' := by
  cases act with
  | login => exact ⟨_, rfl, h.once, h.freed, h.invoked, h.waiting⟩
  | logout => exact ⟨_, rfl, h.once, h.freed, h.invoked, h.waiting⟩
  | id_handler_add id => exact ⟨_, rfl, h.once, h.freed, h.invoked, h.waiting⟩
  | send_cmd remote_jid cmd option cb => exact ⟨_, rfl, send_cmd_sound remote_jid cmd option cb h⟩
  | message s => exact message_sound h hfirst

/-- A second answer runs the callback again, or stops at the freed block. -/
theorem once_first_answer (a : Agent) (act : Action) (a' : Agent) (hstep : step scan a act = .ok a')
    (hafter : a'.Once) : a.first_answer scan act := by
  cases act with
  | message s =>
    intro data hanswer hagain
    change cb_mesage scan a s = .ok a' at hstep
    rcases cb_mesage_cases scan a s with ⟨hno, -⟩ | ⟨data', hanswer', -, heq⟩
    · rw [hno] at hanswer
      cases hanswer
    · rw [hanswer] at hanswer'
      cases hanswer'
      rw [heq] at hstep
      cases hcall : data.cb.call a.mem data.userdata with
      | error e =>
        rw [hcall] at hstep
        cases hstep
      | ok mem =>
        rw [hcall] at hstep
        cases hstep
        exact (List.nodup_append.mp hafter).2.2 _ hagain _ List.mem_cons_self rfl
  | _ => trivial

end

/-! ## The law -/

/-- Each callback runs at most once, and none on a freed block, exactly in the runs in which
no message answers a command that was answered before. Whatever `sscanf` makes of a text. -/
theorem a_callback_runs_once_while_no_answer_comes_again (scan : String → Option Scanned)
    (acts : List Action) :
    Along (step scan) Agent.Once Agent.new acts ↔
      Meets (step scan) (Agent.first_answer scan) Agent.new acts :=
  along_iff_meets (fun _ h => h.once) first_answer_sound
    (fun a act a' _ hstep hafter => once_first_answer a act a' hstep hafter) acts sound_new

/-! ## An answer that comes twice -/

/-- The `|` between two conversions. -/
def scan_bar : List Char → Option (List Char)
  | '|' :: cs => some cs
  | _ => none

/-- `%[^|]` with a width. -/
def scan_field (width : Nat) (cs : List Char) : Option (List Char × List Char) :=
  let field := (cs.take width).takeWhile (· ≠ '|')
  if field = [] then none else some (field, cs.drop field.length)

/-- `%d`. -/
def scan_int (cs : List Char) : Option (Int × List Char) :=
  let cs := cs.dropWhile is_space
  let sign := cs.takeWhile fun c => c == '-' || c == '+'
  let digits := (cs.drop sign.length).takeWhile Char.isDigit
  if sign.length > 1 ∨ digits = [] then none
  else some (atoi (String.ofList (sign ++ digits)), cs.drop (sign.length + digits.length))

/-- `"%15[^|]|%d|%*[^|]|%127[^|]|%[^\0]"`. The runtime of the project's compiler reads the last
set on behind the NUL up to its bracket, so it takes the rest of the text. A runtime that ends
the format at the NUL makes three conversions only, and `zkmse_receive_rsp` wants four: there no
answer runs a callback at all. -/
def sscanf_rsp (text : String) : Option Scanned := do
  let (cmd_type, cs) ← scan_field 15 text.toList
  let (msg_id, cs) ← scan_int (← scan_bar cs)
  let cs ← scan_bar cs
  let (_, cs) ← scan_field cs.length cs
  let (result, cs) ← scan_field 127 (← scan_bar cs)
  let cs ← scan_bar cs
  if cs = [] then none
  else some { cmd_type := String.ofList cmd_type
              msg_id := msg_id
              result := String.ofList result
              option := String.ofList cs }

def ack : Stanza where
  id := none
  type := some "chat"
  from_jid := some "mcu_0@app.zonekey.com.cn"
  body := some (some "AckCmd|1|create_conference|ok|cid=7")

def answered_twice : List Action :=
  [.login, .send_cmd "mcu_0@app.zonekey.com.cn" "create_conference" "mode=free&desc=x"
    (some .zkmcu_create_cf_rsp), .message ack, .message ack]

section

variable {scan : String → Option Scanned} {a : Agent} {s : Stanza} {msg_id : Int}
  {data : mse_cmd_data}

/-- The callback reads the block that it is called with. -/
theorem answer_on_freed (hconn : a.conn = true) (hid : s.id = none)
    (hack : ack_id scan s = some msg_id) (hmap : a.mse_map msg_id = some data)
    (hfrees : data.cb.frees = true) (hold : data.userdata ∈ a.mem.deleted) :
    step scan a (.message s) = .error .useAfterDelete := by
  refine (cb_mesage_answers hconn hid hack hmap).trans ?_
  unfold mse_receive_rsp.call
  rw [if_pos hfrees, if_pos hold]
  rfl

/-- The same answer twice, to a command whose callback frees its block. -/
theorem an_answer_again_faults (hconn : a.conn = true) (hid : s.id = none)
    (hack : ack_id scan s = some msg_id) (hmap : a.mse_map msg_id = some data)
    (hfrees : data.cb.frees = true) (hnew : data.userdata ∉ a.mem.deleted) :
    run (step scan) a [.message s, .message s] = .error .useAfterDelete := by
  have hcall : data.cb.call a.mem data.userdata =
      .ok { a.mem with deleted := data.userdata :: a.mem.deleted } := by
    simp [mse_receive_rsp.call, hfrees, hnew, Memory.delete]
  obtain ⟨t, hfirst, hconn', hmap', hold⟩ : ∃ t, step scan a (.message s) = .ok t ∧
      t.conn = true ∧ t.mse_map msg_id = some data ∧ data.userdata ∈ t.mem.deleted := by
    have hanswer := cb_mesage_answers hconn hid hack hmap
    rw [hcall] at hanswer
    exact ⟨_, hanswer, hconn, hmap, List.mem_cons_self⟩
  rw [run_cons_ok _ hfirst]
  unfold run
  rw [answer_on_freed hconn' hid hack hmap' hfrees hold]

end

/-- However `sscanf` reads the text, if it is the answer to command 1, the second one runs
`zkmcu_create_cf_rsp` on the block that it freed. -/
theorem an_answer_that_comes_twice_runs_its_callback_twice :
    ack_id sscanf_rsp ack = some 1 ∧
      ∀ scan : String → Option Scanned, ack_id scan ack = some 1 →
        run (step scan) Agent.new answered_twice = .error .useAfterDelete ∧
          ¬ ∀ acts, Along (step scan) Agent.Once Agent.new acts := by
  refine ⟨by decide +kernel, fun scan hack => ?_⟩
  have hfault : run (step scan) Agent.new answered_twice = .error .useAfterDelete := by
    rw [answered_twice, run_cons_ok _ rfl, run_cons_ok _ rfl]
    exact an_answer_again_faults rfl rfl hack rfl rfl List.not_mem_nil
  refine ⟨hfault, fun hall => ?_⟩
  obtain ⟨a, ha⟩ := along_ends (hall answered_twice)
  rw [ha] at hfault
  cases hfault

end zonekey_mcu.xmpp_commands
