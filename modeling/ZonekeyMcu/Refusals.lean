-- Commands that do not apply to a conference: the wrong kind, an id of nothing, a
-- payload that is not supported. Each is refused with a negative return code, or it
-- is one of the few that trip an assert or a null filter.
import ZonekeyMcu.ConferenceCalls

open zonekey_mcu.members zonekey_mcu.options zonekey_mcu.director

namespace zonekey_mcu.conference

/-! ## Calls that apply -/

/-- The parameters that a conference takes. A free one takes all. -/
def Conference.takes_params (c : Conference) (params : KVS) : Prop :=
  c.type = .CT_FREE ∨ c.commanded params ≠ none ∨
    param params "name" = "v.encoder" ∧
      chk_params params ["width", "height", "fps", "kbps", "gop"] = none

/-- Both ids name video streams. A free conference takes all ids. -/
def Conference.takes_exchange (c : Conference) (id1 id2 : Int) : Prop :=
  c.type = .CT_FREE ∨ ∃ s1 s2, c.streams_.find? (fun s => s.stream_id = id1) = some s1 ∧
    c.streams_.find? (fun s => s.stream_id = id2) = some s2 ∧
    s1.payload_type = 100 ∧ s2.payload_type = 100

/-- The call is one that the conference can do. -/
def Conference.applies (c : Conference) : Call → Prop
  | .addSource _ params => asks_source params
  | .delSource params => chk_params params ["sid"] = none ∧
    ∃ s ∈ c.sources_, s.id_ = param_i params "sid"
  | .addSink _ params => c.takes_sink params
  | .delSink params => chk_params params ["sinkid"] = none ∧
    ∃ s ∈ c.sinks_, s.id_ = param_i params "sinkid"
  | .addStream _ params => c.takes_stream params
  | .addStreamWithPublisher _ params => c.takes_stream params
  | .delStream params => chk_params params ["streamid"] = none ∧
    ∃ s ∈ c.streams_, s.id_ = param_i params "streamid"
  | .setParams params => c.takes_params params
  | .vs_exchange_position id1 id2 => c.takes_exchange id1 id2
  | .run_once _ => True

/-- The names of the parameters that are read, and what `v.desc` needs. -/
def Conference.reads (c : Conference) (params : KVS) : Prop :=
  c.type = .CT_FREE ∨
    (param params "name" = "v.desc" ∧ chk_params params ["streamid"] = none ∧
      c.streams_.find? (fun s => s.stream_id = param_i params "streamid") ≠ none) ∨
    param params "name" ∈ ["v.zorder", "v.encoder", "v.stat", "v.complete_state"]

variable {c : Conference}

/-! ## Refusals -/

/-- A delete by id, of an id that no member has. -/
theorem no_member {α : Type} {id : α → Int} {xs : List α} {key : String} {params : KVS}
    (h : ¬ (chk_params params [key] = none ∧ ∃ x ∈ xs, id x = param_i params key)) :
    chk_params params [key] ≠ none ∨ ∀ x ∈ xs, id x ≠ param_i params key := by
  by_cases hchk : chk_params params [key] = none
  · exact Or.inr fun x hx hid => h ⟨hchk, x, hx, hid⟩
  · exact Or.inl hchk

theorem director_of_ne_free (h : c.type ≠ .CT_FREE) : c.type = .CT_DIRECTOR := by
  cases htype : c.type with
  | CT_FREE => exact absurd htype h
  | CT_DIRECTOR => rfl

theorem Owned.setParams_refused (h : Owned c) {params : KVS} (hno : ¬ c.takes_params params)
    (results : KVS) : ∃ results', c.setParams params results = .ok (-1, results', c) := by
  obtain ⟨hfree, hcmd, hencoder⟩ : c.type ≠ .CT_FREE ∧ ¬ c.commanded params ≠ none ∧ _ :=
    ⟨fun hf => hno (Or.inl hf), fun hc => hno (Or.inr (Or.inl hc)),
      fun he => hno (Or.inr (Or.inr he))⟩
  have htype := director_of_ne_free hfree
  by_cases hname : names_picture params
  · have hcommands := h.setParams_picture htype hname results
    unfold Conference.Commands at hcommands
    rwa [not_not.mp hcmd] at hcommands
  · obtain ⟨hdesc, hzorder⟩ := not_or.mp hname
    unfold Conference.setParams
    rw [htype]
    dsimp only
    split
    · exact ⟨_, rfl⟩
    · rw [if_neg hdesc, if_neg hzorder]
      split
      · rename_i hname
        unfold Conference.sp_v_encoder
        split
        · exact ⟨_, rfl⟩
        · rename_i hchk
          exact absurd ⟨hname, hchk⟩ hencoder
      · exact ⟨_, rfl⟩

theorem Owned.vs_exchange_refused (h : Owned c) {id1 id2 : Int}
    (hno : ¬ c.takes_exchange id1 id2) : c.vs_exchange_position id1 id2 = .ok (-1, c) := by
  have htype := director_of_ne_free fun hfree => hno (Or.inl hfree)
  unfold Conference.vs_exchange_position
  rw [htype, h.find_stream, h.find_stream]
  simp only [ok_bind]
  split
  · rename_i s1 s2 h1 h2
    split
    · rename_i hvideo
      exact absurd (Or.inr ⟨s1, s2, h1, h2, hvideo⟩) hno
    · rfl
  · rfl

/-- Reading needs a name that is known. -/
theorem Owned.getParams_refused (h : Owned c) (texts : Texts) {params : KVS}
    (hno : ¬ c.reads params) (results : KVS) :
    ∃ results', c.getParams texts params results = .ok (-1, results', c) := by
  obtain ⟨hfree, hrest⟩ := not_or.mp hno
  obtain ⟨hdesc, hname⟩ := not_or.mp hrest
  simp only [List.mem_cons, List.not_mem_nil, or_false, not_or] at hname
  unfold Conference.getParams
  rw [director_of_ne_free hfree]
  dsimp only
  split
  · exact ⟨_, rfl⟩
  · simp only [hname, if_false]
    split
    · rename_i hdname
      unfold Conference.gp_v_desc
      by_cases hchk : chk_params params ["streamid"] = none
      · rw [if_neg fun hn => hn hchk, h.find_stream]
        simp only [ok_bind]
        split
        · exact ⟨_, rfl⟩
        · rename_i s hfind
          exact absurd ⟨hdname, hchk, by rw [hfind]; exact Option.some_ne_none s⟩ hdesc
      · rw [if_pos hchk]
        exact ⟨_, rfl⟩
    · exact ⟨_, rfl⟩

/-! ## The law of one call -/

/-- The call is refused. -/
def Conference.Refuses (c : Conference) (call : Call) : Prop :=
  ∃ rc c', c.call call = .ok (rc, c') ∧ rc < 0

theorem refuses_of {call : Call} {x : Result} (hcall : c.call call = x.map fun r => (r.1, r.2.2))
    {rc : Int} {results : KVS} {c' : Conference} (hx : x = .ok (rc, results, c')) (hrc : rc < 0) :
    c.Refuses call :=
  ⟨rc, c', by rw [hcall, hx]; rfl, hrc⟩

theorem Sound.addStreamWith_refuses (h : Sound c) (env : Env) (sink publisher : Bool)
    {params : KVS} (hno : ¬ c.takes_stream params) (ht : ¬ c.stream_trips sink params) {call : Call}
    (hcall : c.call call = (c.addStreamWith env sink publisher params []).map
      fun r => (r.1, r.2.2)) : c.Refuses call := by
  rcases h.addStreamWith env sink publisher params [] with
    ⟨htrips, -⟩ | ⟨-, -, -, hyes, -⟩ | ⟨-, rc, results, c', hok, -, hrc⟩
  · exact absurd htrips ht
  · exact absurd hyes hno
  · exact refuses_of hcall hok (hrc hno)

/-- A call that does not apply, and does not trip, is refused. -/
theorem Sound.refuses (h : Sound c) {call : Call} (hno : ¬ c.applies call)
    (ht : ¬ c.call_trips call) : c.Refuses call := by
  cases call with
  | addSource env params =>
    rcases addSource_cases c env params [] with ⟨hok, -⟩ | ⟨-, hask⟩
    · exact refuses_of rfl hok (by decide)
    · exact absurd hask hno
  | delSource params =>
    obtain ⟨rc, c', hok, -, hrc⟩ := h.owned.delSource params []
    exact refuses_of rfl hok (hrc (no_member hno))
  | addSink env params =>
    rcases h.owned.addSink h.parity.odd env params [] with
      ⟨htrips, -⟩ | ⟨-, rc, results, c', hok, -, hrc⟩
    · exact absurd htrips ht
    · exact refuses_of rfl hok (hrc hno)
  | delSink params =>
    obtain ⟨rc, c', hok, -, hrc⟩ := h.owned.delSink params []
    exact refuses_of rfl hok (hrc (no_member hno))
  | addStream env params => exact h.addStreamWith_refuses env true false hno ht rfl
  | addStreamWithPublisher env params => exact h.addStreamWith_refuses env false true hno ht rfl
  | delStream params =>
    rcases h.delStream params [] with ⟨-, -, hchk, s, hs, hid, -⟩ | ⟨rc, c', hok, -, hrc⟩
    · exact absurd ⟨hchk, s, hs, hid⟩ hno
    · exact refuses_of rfl hok (hrc (no_member hno))
  | setParams params =>
    obtain ⟨results, hok⟩ := h.owned.setParams_refused hno []
    exact refuses_of rfl hok (by decide)
  | vs_exchange_position id1 id2 => exact ⟨-1, c, h.owned.vs_exchange_refused hno, by decide⟩
  | run_once env => exact absurd trivial hno

end zonekey_mcu.conference
