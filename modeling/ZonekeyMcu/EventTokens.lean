-- The clients that wait for an event of a conference. `waitEvent` puts the token of a request
-- behind the others of its client, and `chkCastNotify` answers the first one of each client.
import ZonekeyMcu.Options
import ZonekeyMcu.Lib.Runs
import Mathlib.Data.List.Perm.Basic

open zonekey_mcu.options runs

namespace zonekey_mcu.event_tokens

/-! ## The waiting requests -/

abbrev Token := Nat

/-- A token that is `none` is a null pointer. -/
structure XmppResponse where
  token : Option Token
  cmd : String
  cmd_options : String
  result : String
  result_options : String
  from_jid : String
  deriving DecidableEq, Repr

/-- The tokens of each client, in the order of the clients. -/
abbrev XMPP_NOTIFY_DATAS := List (String × List XmppResponse)

/-- A call of `zkrbt_mse_respond`. -/
structure Answer where
  token : Token
  result : String
  param : String
  deriving DecidableEq, Repr

/-- `answered` are the answers and `registered` the tokens of the calls of `waitEvent`, so far. -/
structure Conference where
  xmpp_notify_datas_ : XMPP_NOTIFY_DATAS
  answered : List Answer
  registered : List Token

def Conference.new : Conference where
  xmpp_notify_datas_ := []
  answered := []
  registered := []

/-- Behind the other tokens of the client, or first in a new entry. -/
def push_back (res : XmppResponse) : XMPP_NOTIFY_DATAS → XMPP_NOTIFY_DATAS
  | [] => [(res.from_jid, [res])]
  | (key, tokens) :: datas =>
    if res.from_jid = key then (key, tokens ++ [res]) :: datas
    else if res.from_jid < key then (res.from_jid, [res]) :: (key, tokens) :: datas
    else (key, tokens) :: push_back res datas

def Conference.waitEvent (c : Conference) (from_jid cmd : String) (options : Option String)
    (uac_token : Option Token) : Conference :=
  let res : XmppResponse :=
    { token := uac_token, cmd := cmd, cmd_options := options.getD "", result := "ok"
      result_options := "", from_jid := from_jid }
  { c with
    xmpp_notify_datas_ := push_back res c.xmpp_notify_datas_
    registered := c.registered ++ uac_token.toList }

/-- One turn of the loop: the entry that stays, if it stays, and the answer. The entry is erased
when tokens are left. -/
def turn (options : String) (entry : String × List XmppResponse) :
    XMPP_NOTIFY_DATAS × List Answer :=
  match entry with
  | (key, []) => ([(key, [])], [])
  | (key, res :: tokens) =>
    let answers := res.token.toList.map fun token =>
      { token := token, result := res.result, param := options }
    (if tokens ≠ [] then [] else [(key, tokens)], answers)

def notify_options (who cmd : String) (options : Option String) (result : String)
    (result_options : Option String) : KVS :=
  KVS.set "result_options" (result_options.getD "<null>") (KVS.set "result" result
    (KVS.set "cmd_options" (options.getD "<null>") (KVS.set "cmd" cmd (KVS.set "who" who []))))

def Conference.chkCastNotify (c : Conference) (who cmd : String) (options : Option String)
    (result : String) (result_options : Option String) : Conference :=
  let opts := util_encode_options (notify_options who cmd options result result_options)
  let turns := c.xmpp_notify_datas_.map (turn opts)
  { c with
    xmpp_notify_datas_ := turns.flatMap (·.1)
    answered := c.answered ++ turns.flatMap (·.2) }

inductive Call
  | waitEvent (from_jid cmd : String) (options : Option String) (uac_token : Option Token)
  | chkCastNotify (who cmd : String) (options : Option String) (result : String)
    (result_options : Option String)
  deriving DecidableEq, Repr

def step (c : Conference) : Call → Except Fault Conference
  | .waitEvent from_jid cmd options uac_token =>
    .ok (c.waitEvent from_jid cmd options uac_token)
  | .chkCastNotify who cmd options result result_options =>
    .ok (c.chkCastNotify who cmd options result result_options)

/-! ## The property -/

def tokens_of (queue : List XmppResponse) : List Token :=
  queue.filterMap XmppResponse.token

/-- The tokens that still wait. -/
def queued (datas : XMPP_NOTIFY_DATAS) : List Token := datas.flatMap fun entry => tokens_of entry.2

def Conference.answered_tokens (c : Conference) : List Token := c.answered.map Answer.token

/-- Each registered token was answered or still waits, and none was answered more often than it
was registered. -/
structure Conserved (c : Conference) : Prop where
  all : c.registered.Perm (c.answered_tokens ++ queued c.xmpp_notify_datas_)
  once : ∀ token, c.answered_tokens.count token ≤ c.registered.count token

/-- At an event, no client has a second token that waits. -/
def Spared (c : Conference) : Call → Prop
  | .waitEvent _ _ _ _ => True
  | .chkCastNotify _ _ _ _ _ => ∀ entry ∈ c.xmpp_notify_datas_, tokens_of entry.2.tail = []

/-! ## The queues -/

section

variable {c c' : Conference}

/-- A new token waits, and the others wait as before. -/
theorem queued_push_back (res : XmppResponse) (datas : XMPP_NOTIFY_DATAS) :
    (queued (push_back res datas)).Perm (queued datas ++ res.token.toList) := by
  have hone : tokens_of [res] = res.token.toList := by
    cases h : res.token with
    | none => simp [tokens_of, h]
    | some token => simp [tokens_of, h]
  induction datas with
  | nil => simp [push_back, queued, hone]
  | cons entry datas ih =>
    obtain ⟨key, tokens⟩ := entry
    unfold push_back
    split
    · have happ : tokens_of (tokens ++ [res]) = tokens_of tokens ++ res.token.toList := by
        rw [← hone]
        exact List.filterMap_append
      simp only [queued, List.flatMap_cons, happ, List.append_assoc]
      exact List.Perm.append_left _ List.perm_append_comm
    · split
      · simp only [queued, List.flatMap_cons, hone]
        exact List.perm_append_comm
      · simp only [queued, List.flatMap_cons, List.append_assoc]
        exact List.Perm.append_left _ ih

/-- The tokens behind the first one of each client. -/
def behind (datas : XMPP_NOTIFY_DATAS) : List Token :=
  datas.flatMap fun entry => tokens_of entry.2.tail

/-- After a turn no token of the entry waits. -/
theorem queued_turn (opts : String) (entry : String × List XmppResponse) :
    queued (turn opts entry).1 = [] := by
  obtain ⟨key, tokens⟩ := entry
  cases tokens with
  | nil => rfl
  | cons res tokens =>
    unfold turn
    dsimp only
    split
    · rfl
    · rename_i hnil
      rw [Decidable.not_not.mp hnil]
      rfl

/-- The first token is answered, and the others are neither answered nor kept. -/
theorem turn_tokens (opts : String) (entry : String × List XmppResponse) :
    tokens_of entry.2 = (turn opts entry).2.map Answer.token ++ tokens_of entry.2.tail := by
  obtain ⟨key, tokens⟩ := entry
  cases tokens with
  | nil => rfl
  | cons res tokens =>
    cases h : res.token with
    | none => simp [turn, tokens_of, h]
    | some token => simp [turn, tokens_of, h]

theorem queued_turns (opts : String) (datas : XMPP_NOTIFY_DATAS) :
    queued ((datas.map (turn opts)).flatMap (·.1)) = [] := by
  induction datas with
  | nil => rfl
  | cons entry datas ih =>
    have hsplit : queued (((entry :: datas).map (turn opts)).flatMap (·.1)) =
        queued (turn opts entry).1 ++ queued ((datas.map (turn opts)).flatMap (·.1)) := by
      rw [List.map_cons, List.flatMap_cons]
      exact List.flatMap_append
    rw [hsplit, queued_turn, ih]
    rfl

theorem turns_tokens (opts : String) (datas : XMPP_NOTIFY_DATAS) :
    (queued datas).Perm
      (((datas.map (turn opts)).flatMap (·.2)).map Answer.token ++ behind datas) := by
  induction datas with
  | nil => exact List.Perm.nil
  | cons entry datas ih =>
    have hcons : queued (entry :: datas) = tokens_of entry.2 ++ queued datas := List.flatMap_cons
    have hbehind : behind (entry :: datas) = tokens_of entry.2.tail ++ behind datas :=
      List.flatMap_cons
    rw [hcons, hbehind, turn_tokens opts entry, List.map_cons, List.flatMap_cons, List.map_append]
    rw [List.append_assoc, List.append_assoc]
    apply List.Perm.append_left
    refine (List.Perm.append_left _ ih).trans ?_
    rw [← List.append_assoc, ← List.append_assoc]
    exact List.Perm.append_right _ List.perm_append_comm

/-! ## The calls -/

/-- The tokens that no event answered and that no longer wait. -/
structure Counted (c : Conference) (lost : List Token) : Prop where
  all : c.registered.Perm (c.answered_tokens ++ queued c.xmpp_notify_datas_ ++ lost)

theorem Counted.once {lost : List Token} (h : Counted c lost) (token : Token) :
    c.answered_tokens.count token ≤ c.registered.count token := by
  rw [h.all.count_eq token, List.append_assoc, List.count_append]
  exact Nat.le_add_right _ _

theorem Conserved.counted (h : Conserved c) : Counted c [] where
  all := by
    rw [List.append_nil]
    exact h.all

theorem Counted.conserved (h : Counted c []) : Conserved c where
  all := by
    have hall := h.all
    rwa [List.append_nil] at hall
  once := h.once

theorem Counted.waitEvent {lost : List Token} (h : Counted c lost) (from_jid cmd : String)
    (options : Option String) (uac_token : Option Token) :
    Counted (c.waitEvent from_jid cmd options uac_token) lost where
  all := by
    let res : XmppResponse :=
      { token := uac_token, cmd := cmd, cmd_options := options.getD "", result := "ok"
        result_options := "", from_jid := from_jid }
    have hpush : (queued (push_back res c.xmpp_notify_datas_)).Perm
        (queued c.xmpp_notify_datas_ ++ uac_token.toList) := queued_push_back res _
    change (c.registered ++ uac_token.toList).Perm
      (c.answered_tokens ++ queued (push_back res c.xmpp_notify_datas_) ++ lost)
    refine (List.Perm.append_right _ h.all).trans ?_
    refine List.Perm.trans ?_
      (List.Perm.append_right lost (List.Perm.append_left c.answered_tokens hpush.symm))
    simp only [List.append_assoc]
    exact List.Perm.append_left _ (List.Perm.append_left _ List.perm_append_comm)

/-- An event answers the first token of each client and loses those behind it. -/
theorem Counted.chkCastNotify {lost : List Token} (h : Counted c lost) (who cmd : String)
    (options : Option String) (result : String) (result_options : Option String) :
    Counted (c.chkCastNotify who cmd options result result_options)
      (behind c.xmpp_notify_datas_ ++ lost) where
  all := by
    let opts := util_encode_options (notify_options who cmd options result result_options)
    have hturns := turns_tokens opts c.xmpp_notify_datas_
    have hnone := queued_turns opts c.xmpp_notify_datas_
    change c.registered.Perm
      ((c.answered ++ (c.xmpp_notify_datas_.map (turn opts)).flatMap (·.2)).map Answer.token ++
        queued ((c.xmpp_notify_datas_.map (turn opts)).flatMap (·.1)) ++
          (behind c.xmpp_notify_datas_ ++ lost))
    rw [hnone, List.map_append, List.append_nil]
    refine h.all.trans ?_
    rw [List.append_assoc, List.append_assoc]
    refine List.Perm.append_left c.answered_tokens ?_
    rw [← List.append_assoc]
    exact List.Perm.append_right lost hturns

/-- Whatever happens, no token is answered more often than it was registered. -/
theorem answered_at_most_once {calls : List Call} (hrun : run step Conference.new calls = .ok c)
    (token : Token) : c.answered_tokens.count token ≤ c.registered.count token := by
  have hstep : ∀ s a t, (∃ lost, Counted s lost) → step s a = .ok t → ∃ lost, Counted t lost := by
    rintro s a t ⟨lost, h⟩ hst
    cases a with
    | waitEvent from_jid cmd options uac_token =>
      cases hst
      exact ⟨lost, h.waitEvent from_jid cmd options uac_token⟩
    | chkCastNotify who cmd options result result_options =>
      cases hst
      exact ⟨_, h.chkCastNotify who cmd options result result_options⟩
  obtain ⟨lost, h⟩ := run_keeps (I := fun c => ∃ lost, Counted c lost) hstep
    ⟨[], ⟨List.Perm.nil⟩⟩ hrun
  exact h.once token

theorem behind_eq_nil {datas : XMPP_NOTIFY_DATAS} :
    behind datas = [] ↔ ∀ entry ∈ datas, tokens_of entry.2.tail = [] :=
  List.flatMap_eq_nil_iff

theorem spared_keeps {call : Call} (h : Conserved c) (hc : Spared c call) :
    ∃ c', step c call = .ok c' ∧ Conserved c' := by
  cases call with
  | waitEvent from_jid cmd options uac_token =>
    exact ⟨_, rfl, (h.counted.waitEvent from_jid cmd options uac_token).conserved⟩
  | chkCastNotify who cmd options result result_options =>
    have hcast := h.counted.chkCastNotify who cmd options result result_options
    rw [behind_eq_nil.mpr hc] at hcast
    exact ⟨_, rfl, hcast.conserved⟩

/-- What was conserved lost nothing. -/
theorem conserved_was_spared {call : Call} (h : Conserved c) (hstep : step c call = .ok c')
    (hc' : Conserved c') : Spared c call := by
  cases call with
  | waitEvent from_jid cmd options uac_token => trivial
  | chkCastNotify who cmd options result result_options =>
    cases hstep
    have hcast := h.counted.chkCastNotify who cmd options result result_options
    have hlen := (hc'.all.symm.trans hcast.all).length_eq
    apply behind_eq_nil.mp
    apply List.length_eq_zero_iff.mp
    simp only [List.length_append] at hlen
    omega

end

/-! ## The law -/

/-- The tokens are conserved exactly while no event comes to a client with a second token that
waits. -/
theorem the_tokens_are_conserved_until_an_event_finds_two (calls : List Call) :
    Along step Conserved Conference.new calls ↔ Meets step Spared Conference.new calls :=
  along_iff_meets (I := Conserved) (fun _ h => h) (fun _ _ h => spared_keeps h)
    (fun _ _ _ h hstep hc => conserved_was_spared h hstep hc) calls
    { all := List.Perm.nil, once := fun _ => Nat.le_refl _ }

/-- Two requests of one client, and one event: the second one is never answered. -/
def two_requests : List Call :=
  [.waitEvent "a@zonekey" "wait_event" none (some 1),
    .waitEvent "a@zonekey" "wait_event" none (some 2),
    .chkCastNotify "b@zonekey" "add_source" none "ok" none]

theorem an_event_drops_the_second_request :
    (run step Conference.new two_requests).map (fun c =>
        (c.registered, c.answered_tokens, c.xmpp_notify_datas_)) = .ok ([1, 2], [1], []) ∧
      ¬ ∀ calls : List Call, Along step Conserved Conference.new calls := by
  have hrun : (run step Conference.new two_requests).map (fun c =>
      (c.registered, c.answered_tokens, c.xmpp_notify_datas_)) = .ok ([1, 2], [1], []) := by
    decide +kernel
  refine ⟨hrun, fun hall => ?_⟩
  obtain ⟨c, hc⟩ := along_ends (hall two_requests)
  have hlen := (along_end (hall two_requests) hc).all.length_eq
  rw [hc] at hrun
  simp only [Except.map, Except.ok.injEq, Prod.mk.injEq] at hrun
  rw [hrun.1, hrun.2.1, hrun.2.2] at hlen
  cases hlen

end zonekey_mcu.event_tokens
