-- What one command of a remote client can do to the server. A command trips an assert or a
-- null filter, or is logged as a format that converts, only in a few cases. Outside of them
-- each command that does not apply is answered with an error.
import ZonekeyMcu.CommandTexts
import ZonekeyMcu.Refusals
import ZonekeyMcu.ServerRuns
import ZonekeyMcu.OptionPairs

open runs zonekey_mcu.members zonekey_mcu.options zonekey_mcu.conference zonekey_mcu.logging

namespace zonekey_mcu.server

/-! ## Commands that apply -/

/-- The commands that only need a conference. -/
def naming : List String :=
  ["info_conference", "fc.list_sources", "dc.list_streams", "dc.get_all_videos",
    "destroy_conference", "reg_notify"]

/-- The commands that need nothing. -/
def general : List String := ["list_conferences", "get_version", "version", "sys_info"]

/-- The command is known, its keys are there, and what it names can do it. -/
def Server.applies (s : Server) (w : World) (params : KVS) (str_cmd : String) : Prop :=
  (∃ c call, s.called w params str_cmd = some (c, call) ∧ c.applies call) ∨
  str_cmd = "create_conference" ∧ ¬ s.not_created params ∨
  str_cmd = "get_params" ∧ chk_params params ["cid"] = none ∧
    (∃ c, s.find_conference (param_i params "cid") = some c ∧ c.reads params) ∨
  str_cmd ∈ naming ∧ chk_params params ["cid"] = none ∧
    s.find_conference (param_i params "cid") ≠ none ∨
  str_cmd ∈ general

/-- The handler refuses the command. -/
def Refused (x : Result) : Prop := ∃ rc results s', x = .ok (rc, results, s') ∧ rc < 0

variable {s : Server} {w : World} {params : KVS} {str_cmd : String} {x : Result}

/-! ## Handlers that refuse -/

theorem handler_refused {find : Server → Int → Option Conference} {keys : List String}
    {f : Conference → conference.Result} (hfind : ∀ cid, find s cid = s.find_conference cid)
    (h : ¬ (chk_params params keys = none ∧ s.find_conference (param_i params "cid") ≠ none)) :
    Refused (s.handler find keys params [] f) := by
  unfold Server.handler
  cases hchk : chk_params params keys with
  | some info => exact ⟨-1, _, s, rfl, by decide⟩
  | none =>
    have hnone : s.find_conference (param_i params "cid") = none := by
      by_contra hsome
      exact h ⟨hchk, hsome⟩
    dsimp only
    rw [hfind, hnone]
    exact ⟨-1, _, s, rfl, by decide⟩

theorem info_conference_refused
    (h : ¬ (chk_params params ["cid"] = none ∧ s.find_conference (param_i params "cid") ≠ none)) :
    Refused (s.info_conference w params []) := by
  unfold Server.info_conference
  cases hchk : chk_params params ["cid"] with
  | some info => exact ⟨-1, _, s, rfl, by decide⟩
  | none =>
    have hnone : s.find_conference (param_i params "cid") = none := by
      by_contra hsome
      exact h ⟨hchk, hsome⟩
    unfold Server.find_conference at hnone
    dsimp only
    rw [hnone]
    exact ⟨-1, _, s, rfl, by decide⟩

theorem ServerSound.get_params_refused (hs : ServerSound s)
    (h : ¬ (chk_params params ["cid"] = none ∧
      ∃ c, s.find_conference (param_i params "cid") = some c ∧ c.reads params)) :
    Refused (s.get_params w params []) := by
  by_cases hfound : chk_params params ["cid"] = none ∧
      s.find_conference (param_i params "cid") ≠ none
  · obtain ⟨hchk, hne⟩ := hfound
    obtain ⟨c, hc⟩ := Option.ne_none_iff_exists'.mp hne
    obtain ⟨results, hok⟩ := (hs.sound c (find_conference_mem hc)).owned.getParams_refused w.texts
      (fun hreads => h ⟨hchk, c, hc, hreads⟩) []
    unfold Server.get_params Server.handler Server.call_on
    rw [hchk, hc]
    dsimp only
    rw [hok]
    exact ⟨-1, _, _, rfl, by decide⟩
  · exact handler_refused (fun _ => rfl) hfound

/-- A command that makes a call is refused when the call is. -/
theorem ServerSound.follows_refused (h : ServerSound s) {keys : List String} {call : Call}
    (hroute : route w params str_cmd = some (keys, call)) (hx : s.Follows params keys call x)
    (hno : ¬ s.applies w params str_cmd) (ht : ¬ s.trips w params str_cmd) : Refused x := by
  have hcalled := called_of_route (s := s) hroute
  unfold Server.Follows at hx
  cases hfind : (if chk_params params keys = none then s.find_conference (param_i params "cid")
      else none) with
  | none =>
    rw [hfind] at hx
    obtain ⟨results, rfl⟩ := hx
    exact ⟨-1, results, s, rfl, by decide⟩
  | some c =>
    rw [hfind] at hx hcalled
    have hc : c ∈ s.conferences_ := by
      split at hfind
      · exact find_conference_mem hfind
      · cases hfind
    obtain ⟨rc, c', hok, hrc⟩ := (h.sound c hc).refuses
      (fun happlies => hno (Or.inl ⟨c, call, hcalled, happlies⟩))
      fun htrips => ht ⟨c, call, hcalled, htrips⟩
    rcases hx with ⟨e, herr, -⟩ | ⟨rc₁, rc', c₁, results, hok₁, hneg, rfl⟩
    · rw [hok] at herr
      cases herr
    · rw [hok] at hok₁
      cases hok₁
      exact ⟨rc', results, _, rfl, hneg hrc⟩

/-! ## The dispatcher refuses -/

/-- A command that only names a conference, and does not apply, names none. -/
theorem names_nothing (hcmd : str_cmd ∈ naming) (hno : ¬ s.applies w params str_cmd) :
    ¬ (chk_params params ["cid"] = none ∧ s.find_conference (param_i params "cid") ≠ none) :=
  fun h => hno (Or.inr (Or.inr (Or.inr (Or.inl ⟨hcmd, h⟩))))

theorem ServerSound.dispatch_refused (h : ServerSound s) (hx : s.dispatch w params str_cmd = some x)
    (hno : ¬ s.applies w params str_cmd) (ht : ¬ s.trips w params str_cmd) : Refused x := by
  cases hroute : route w params str_cmd with
  | some r =>
    obtain ⟨keys, call⟩ := r
    obtain ⟨y, hy, hfollows⟩ := h.dispatch_follows hroute
    rw [hy] at hx
    cases hx
    exact h.follows_refused hroute hfollows hno ht
  | none =>
    rcases dispatch_cases hroute hx with rfl | rfl | rfl | rfl | rfl | rfl | rfl <;> cases hx
    · rcases create_conference_cases s w params with ⟨-, results, hok⟩ | ⟨hmade, -⟩
      · exact ⟨-1, results, s, hok, by decide⟩
      · exact absurd (Or.inr (Or.inl ⟨rfl, hmade⟩)) hno
    · exact absurd (Or.inr (Or.inr (Or.inr (Or.inr (by simp [general]))))) hno
    · exact info_conference_refused (names_nothing (by simp [naming]) hno)
    · exact h.get_params_refused fun hreads => hno (Or.inr (Or.inr (Or.inl ⟨rfl, hreads⟩)))
    · rw [fc_list_sources_eq]
      exact handler_refused (fun _ => rfl) (names_nothing (by simp [naming]) hno)
    · exact handler_refused (fun _ => rfl) (names_nothing (by simp [naming]) hno)
    · exact handler_refused (fun _ => rfl) (names_nothing (by simp [naming]) hno)

/-- The answer of a command that is refused. -/
def Answered (token : Token) (y : Except Fault (List Answer × Server)) : Prop :=
  ∃ text s', y = .ok (respond token "err" (some text), s')

/-- A logged answer of a command that is refused. -/
theorem respond_log_refused {token : Token} (param : String) (s' : Server)
    (f : List Answer → List Answer) (hf : f (respond token "err" (some param)) =
      respond token "err" (some param)) :
    Answered token (respond_log token "err" param >>= fun answers => pure (f answers, s')) ∨
      (respond_log token "err" param >>= fun answers => pure (f answers, s')) =
        .error .missingArgument := by
  rcases respond_log_cases token "err" param with ⟨hok, -⟩ | ⟨herr, -⟩
  · rw [hok]
    exact Or.inl ⟨param, s', by rw [ok_bind, hf]; rfl⟩
  · rw [herr]
    exact Or.inr rfl

/-- A command that does not apply, and does not trip, is answered with an error, if its answer
can be logged. -/
theorem ServerSound.command_refused (h : ServerSound s) (jid : String) (token : Token)
    (hno : ¬ s.applies w params str_cmd) (ht : ¬ s.trips w params str_cmd) :
    Answered token (s.command w jid str_cmd params token) ∨
      s.command w jid str_cmd params token = .error .missingArgument := by
  have hgeneral : str_cmd ∉ general := fun hcmd => hno (Or.inr (Or.inr (Or.inr (Or.inr hcmd))))
  simp only [general, List.mem_cons, List.not_mem_nil, or_false, not_or] at hgeneral
  obtain ⟨-, hget, hversion, hsys⟩ := hgeneral
  unfold Server.command
  rw [if_neg (not_or.mpr ⟨hget, hversion⟩), if_neg hsys]
  by_cases hcmd : str_cmd = "destroy_conference"
  · have hnothing := names_nothing (by simp [naming, hcmd]) hno
    rw [if_pos hcmd]
    rcases destroy_conference_cases h params with ⟨hchk, c, e, hfind, -⟩ | ⟨results, hok⟩ |
      ⟨hchk, before, c, after, results, tokens, hfind, -, -⟩
    · exact absurd ⟨hchk, by rw [hfind]; exact Option.some_ne_none c⟩ hnothing
    · rw [hok]
      exact respond_log_refused (util_encode_options results) s
        (([] : List Token).map (fun token => ⟨token, "err", none⟩) ++ ·) (List.nil_append _)
    · exact absurd ⟨hchk, by rw [hfind]; exact Option.some_ne_none c⟩ hnothing
  rw [if_neg hcmd]
  by_cases hcmd : str_cmd = "reg_notify"
  · have hnothing := names_nothing (by simp [naming, hcmd]) hno
    rw [if_pos hcmd]
    rcases reg_notify_cases s jid token params with ⟨results, hok⟩ |
      ⟨hchk, before, c, after, tokens, hfind, -, -⟩
    · rw [hok]
      exact respond_log_refused (util_encode_options results) s id rfl
    · exact absurd ⟨hchk, by rw [hfind]; exact Option.some_ne_none c⟩ hnothing
  rw [if_neg hcmd]
  cases hx : s.dispatch w params str_cmd with
  | none => exact Or.inl ⟨_, s, rfl⟩
  | some x =>
    obtain ⟨rc, results, s', rfl, hrc⟩ := h.dispatch_refused hx hno ht
    simp only [ok_bind, pure_eq_ok, result_text, if_pos hrc]
    split
    · exact Or.inl ⟨util_encode_options results, s', rfl⟩
    · exact respond_log_refused (util_encode_options results) s' id rfl

/-! ## The law -/

/-- The command trips no assert, calls no null filter and does not end the process in the log,
and when it does not apply it is answered with an error. -/
def Server.Withstands (s : Server) (w : World) (jid str_cmd : String) (str_option : Option String)
    (token : Token) : Prop :=
  s.callback_command w jid str_cmd str_option token ≠ .error .assertFailed ∧
  s.callback_command w jid str_cmd str_option token ≠ .error .nullFilter ∧
  s.callback_command w jid str_cmd str_option token ≠ .error .missingArgument ∧
  ∀ params, util_parse_options str_option = .ok params → ¬ s.applies w params str_cmd →
    Answered token (s.callback_command w jid str_cmd str_option token)

/-- In every state that the server reaches, a command is withstood exactly when its options
can be read, it and the texts that its answer repeats are logged as they are, and it is not one
of the calls that trip. -/
theorem a_command_trips_only_so {cap_max : Nat} {actions : List Action} {s : System}
    (hrun : run step (System.new cap_max) actions = .ok s) {w : World} (hw : w.Bare)
    (jid str_cmd : String) (str_option : Option String) (token : Token) :
    s.mcu.Withstands w jid str_cmd str_option token ↔
      well_formed str_option ∧ Printable (command_line str_cmd str_option jid) ∧
      ∀ params, util_parse_options str_option = .ok params →
        ¬ s.mcu.trips w params str_cmd ∧ s.mcu.tells_bare w params str_cmd token := by
  have h := server_sound_run hrun
  unfold Server.Withstands Server.callback_command
  rcases parse_options_cases str_option with ⟨hformed, params, hparse⟩ | ⟨hformed, herr⟩
  · rw [hparse, ok_bind]
    rcases log_cases (command_line str_cmd str_option jid) with ⟨hprint, hlog⟩ | ⟨hno, hlog⟩
    · rw [hlog, ok_bind]
      have htrips := h.trips_iff w jid str_cmd params token
      constructor
      · rintro ⟨hassert, hnull, hmissing, -⟩
        refine ⟨hformed, hprint, fun params' hparams' => ?_⟩
        cases hparams'
        refine ⟨fun ht => ?_, fun hne line htold => ?_⟩
        · obtain ⟨e, herr, he⟩ := htrips.mp ht
          rcases he with rfl | rfl
          · exact hassert herr
          · exact hnull herr
        · by_contra hline
          exact hmissing (command_unprintable hw hne htold hline)
      · rintro ⟨-, -, hall⟩
        obtain ⟨ht, htell⟩ := hall params rfl
        have hlogged := @ServerSound.command_printable s.mcu w params str_cmd jid token h hw htell
        refine ⟨fun herr => ?_, fun herr => ?_, hlogged, fun params' hparams' happlies => ?_⟩
        · exact ht (htrips.mpr ⟨_, herr, Or.inl rfl⟩)
        · exact ht (htrips.mpr ⟨_, herr, Or.inr rfl⟩)
        · cases hparams'
          exact (h.command_refused jid token happlies ht).resolve_right hlogged
    · rw [hlog, error_bind]
      exact iff_of_false (fun hwith => hwith.2.2.1 rfl) fun hwith => hno hwith.2.1
  · rw [herr, error_bind]
    exact iff_of_false (fun hwith => hwith.1 rfl) fun hwith => hformed hwith.1

theorem an_unknown_stream_is_withstood : ∃ s,
    run step (System.new 1) [.ask "create_conference" "mode=director"] = .ok s ∧
      s.mcu.Withstands World.still "client" "dc.del_stream" (some "cid=1&streamid=7") 1 := by
  obtain ⟨s, hrun, hcalled⟩ : ∃ s,
      run step (System.new 1) [.ask "create_conference" "mode=director"] = .ok s ∧
      (s.mcu.called World.still [("cid", "1"), ("streamid", "7")] "dc.del_stream").map Prod.snd =
        some (.delStream [("cid", "1"), ("streamid", "7")]) := ⟨_, rfl, rfl⟩
  have hparse : util_parse_options (some "cid=1&streamid=7") =
      .ok [("cid", "1"), ("streamid", "7")] := rfl
  refine ⟨s, hrun, (a_command_trips_only_so hrun still_bare _ _ _ _).mpr
    ⟨?_, by decide, fun params hparams => ?_⟩⟩
  · rcases parse_options_cases (some "cid=1&streamid=7") with ⟨h, -⟩ | ⟨-, herr⟩
    · exact h
    · rw [hparse] at herr
      cases herr
  · rw [hparse] at hparams
    cases hparams
    refine ⟨?_, fun _ line hline => ?_⟩
    · rintro ⟨c, call, hsome, ht⟩
      rw [hsome] at hcalled
      cases hcalled
      exact ht
    · rw [told_none (by decide)] at hline
      cases hline

/-- A stream for a free conference, a sink of a source that is not there, a Speex stream with a
publisher, and a command that is not known with a conversion in its options. -/
theorem four_commands_end_the_server : ∃ free director,
    run step (System.new 1) [.ask "create_conference" "mode=free"] = .ok free ∧
      run step (System.new 1) [.ask "create_conference" "mode=director"] = .ok director ∧
      free.mcu.callback_command World.still "client" "dc.add_stream"
        (some "cid=1&payload=100") 1 = .error .assertFailed ∧
      director.mcu.callback_command World.still "client" "dc.add_sink"
        (some "cid=1&sid=1&payload=100") 1 = .error .assertFailed ∧
      director.mcu.callback_command World.still "client" "dc.add_stream_with_publisher"
        (some "cid=1&payload=110") 1 = .error .nullFilter ∧
      director.mcu.callback_command World.still "client" "nosuch" (some "a=%s%s%s%n") 1 =
        .error .missingArgument ∧
      ¬ director.mcu.Withstands World.still "client" "nosuch" (some "a=%s%s%s%n") 1 :=
  ⟨_, _, rfl, rfl, rfl, rfl, rfl, rfl, fun h => h.2.2.1 rfl⟩

end zonekey_mcu.server
