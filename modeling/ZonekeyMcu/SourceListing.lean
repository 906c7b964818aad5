-- The list of the sources of a conference. The loop over their descriptions moves the iterator
-- of the conferences, so it runs past the last conference when there is a source.
import ZonekeyMcu.ServerCommands

open runs zonekey_mcu.members zonekey_mcu.options zonekey_mcu.conference

namespace zonekey_mcu.server.listing

/-! ## The list -/

/-- A line for each source, in order, with its own id and description. -/
def source_lines (c : Conference) : String :=
  String.join (c.sources_.map fun s => text_i s.source_id ++ " " ++ s.desc ++ "\n")

/-- The answer lists the sources of the named conference, and a request that names none is
refused. -/
def Lists (s : Server) (params results : KVS) : Prop :=
  match s.named params with
  | some c => s.fc_list_sources params results =
      .ok (0, KVS.set "sources" (source_lines c) results, s)
  | none => ∃ reason, s.fc_list_sources params results =
      .ok (-1, KVS.set "reason" reason results, s)

section

variable {s : Server} {params results : KVS}

/-- The branches of the handler. -/
theorem fc_list_sources_cases (s : Server) (params results : KVS) :
    (∃ c, s.named params = some c ∧ c.sources_ = [] ∧
        s.fc_list_sources params results = .ok (0, KVS.set "sources" "" results, s)) ∨
      (∃ c, s.named params = some c ∧ c.sources_ ≠ [] ∧
        s.fc_list_sources params results = .error .outOfBounds) ∨
      s.named params = none ∧ ∃ reason,
        s.fc_list_sources params results = .ok (-1, KVS.set "reason" reason results, s) := by
  rw [fc_list_sources_eq]
  unfold Server.named Server.handler
  cases chk_params params ["cid"] with
  | some info => exact .inr (.inr ⟨rfl, info, rfl⟩)
  | none =>
    dsimp only
    unfold Server.call_on
    cases hfind : s.find_conference (param_i params "cid") with
    | none => exact .inr (.inr ⟨rfl, _, rfl⟩)
    | some c =>
      dsimp only
      by_cases hnone : c.sources_ = []
      · refine .inl ⟨c, rfl, hnone, ?_⟩
        rw [if_pos hnone, ok_bind, set_conference_self hfind]
        rfl
      · refine .inr (.inl ⟨c, rfl, hnone, ?_⟩)
        rw [if_neg hnone]
        rfl

/-- The sources of the named conference are listed exactly when it has none. -/
theorem the_sources_are_listed_iff_there_are_none :
    Lists s params results ↔ ∀ c, s.named params = some c → c.sources_ = [] := by
  unfold Lists
  rcases fc_list_sources_cases s params results with
    ⟨c, hnamed, hnone, hcall⟩ | ⟨c, hnamed, hsome, hcall⟩ | ⟨hnamed, reason, hcall⟩
  · rw [hnamed, hcall]
    simp [hnone, source_lines]
  · rw [hnamed, hcall]
    simp [hsome]
  · rw [hnamed]
    refine iff_of_true ⟨reason, hcall⟩ fun c hc => ?_
    cases hc

end

/-- One source in the only conference: the loop leaves the list of the conferences. -/
theorem one_source_is_not_listed : ∃ s params,
    run step (System.new 1) [.ask "create_conference" "mode=director",
      .ask "dc.add_source" "cid=1&payload=100"] = .ok s ∧
      util_parse_options (some "cid=1") = .ok params ∧
      s.mcu.fc_list_sources params [] = .error .outOfBounds ∧ ¬ Lists s.mcu params [] := by
  refine ⟨_, _, rfl, rfl, rfl, ?_⟩
  intro h
  cases h

end zonekey_mcu.server.listing
