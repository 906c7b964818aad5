-- The answer of the web service to the question for all conferences. The array that is made
-- for it has room for one of them.
import ZonekeyMcu.ServerRegistry

open returns runs ref_counts

namespace zonekey_mcu.mcu_server

/-- What `soap_malloc` gave, by the `confid` of each struct in it. A struct that was not written
holds none. -/
abbrev Structs := List (Option Int)

structure ConferenceArrayResponse where
  ptr : Option Structs
  size : Nat
  deriving DecidableEq, Repr

/-- `res.__ptr[n].confid = conf_id`. -/
def Structs.store (ptr : Structs) (n : Nat) (conf_id : Int) : Except Fault Structs :=
  if n < ptr.length then .ok (ptr.set n (some conf_id)) else .error .outOfBounds

/-- The loop over the descriptions. -/
def fill : Structs → Nat → List Int → Except Fault Structs
  | ptr, _, [] => .ok ptr
  | ptr, n, conf_id :: confdescs => do
    let ptr ← ptr.store n conf_id
    fill ptr (n + 1) confdescs

/-- The allocation is of the size of one struct. -/
def mcu_listConferences (s : Server) : Except Fault ConferenceArrayResponse := do
  let confdescs ← s.conference_list
  if confdescs.length > 0 then do
    let ptr ← fill [none] 0 confdescs
    return { ptr := some ptr, size := confdescs.length }
  else return { ptr := none, size := confdescs.length }

/-! ## The answer -/

/-- The ids of the conferences, in the order of the list. -/
def Server.conf_ids (s : Server) : List Int :=
  s.conferences_.items.map fun p => (s.conferences_.heap.object p).conf_id_

/-- The array of exactly these ids, with its size. An empty one has no memory. -/
def array_of (ids : List Int) : ConferenceArrayResponse where
  ptr := if ids = [] then none else some (ids.map some)
  size := ids.length

/-- The call ends, so it wrote inside its array, and gives the ids of all conferences. -/
def Server.Lists (s : Server) : Prop := mcu_listConferences s = .ok (array_of s.conf_ids)

section

variable {s : Server}

/-- Two ids do not fit into one struct. -/
theorem fill_one (ids : List Int) :
    fill [none] 0 ids = match ids with
      | [] => .ok [none]
      | [id] => .ok [some id]
      | _ :: _ :: _ => .error .outOfBounds := by
  match ids with
  | [] => rfl
  | [_] => rfl
  | _ :: _ :: _ => rfl

/-- The list is read exactly when none of its conferences was deleted. -/
theorem conference_list_cases (s : Server) :
    (∀ p ∈ s.conferences_.items, s.conferences_.heap.Alive p) ∧
        s.conference_list = .ok s.conf_ids ∨
      (¬ ∀ p ∈ s.conferences_.items, s.conferences_.heap.Alive p) ∧
        s.conference_list = .error .useAfterDelete := by
  unfold Server.conference_list Registry.keys Server.conf_ids
  induction s.conferences_.items with
  | nil => exact .inl ⟨fun p hp => absurd hp List.not_mem_nil, rfl⟩
  | cons p ps ih =>
    rw [List.forall_mem_cons, List.mapM_cons]
    by_cases hp : s.conferences_.heap.Alive p
    · have hget : s.conferences_.heap.get Fault.useAfterDelete p =
          .ok (s.conferences_.heap.object p) := if_pos hp
      rw [hget]
      rcases ih with ⟨hps, hlist⟩ | ⟨hps, hlist⟩
      · exact .inl ⟨⟨hp, hps⟩, by rw [hlist]; rfl⟩
      · exact .inr ⟨fun h => hps h.2, by rw [hlist]; rfl⟩
    · have hget : s.conferences_.heap.get Fault.useAfterDelete p = .error .useAfterDelete :=
        if_neg hp
      exact .inr ⟨fun h => hp h.1, by rw [hget]; rfl⟩

/-- All conferences are listed exactly when there is at most one in the list, and it is there. -/
theorem the_conferences_are_listed_iff_at_most_one_is_alive :
    s.Lists ↔ (∀ p ∈ s.conferences_.items, s.conferences_.heap.Alive p) ∧
      s.conferences_.items.length ≤ 1 := by
  have hlen : s.conf_ids.length = s.conferences_.items.length := List.length_map ..
  unfold Server.Lists mcu_listConferences
  rcases conference_list_cases s with ⟨halive, hlist⟩ | ⟨hdead, hlist⟩
  · rw [hlist, ok_bind, fill_one, ← hlen, and_iff_right halive]
    match s.conf_ids with
    | [] => simp [array_of]
    | [id] => simp [array_of]
    | id :: id' :: ids => simp
  · rw [hlist]
    exact iff_of_false (fun h => by cases h) fun h => hdead h.1

end

/-- With a sound registry it is the number of live conferences alone that counts. -/
theorem Sound.lists_iff {s : State} (h : Sound s) : s.server.Lists ↔ s.live.length ≤ 1 := by
  have hlen : s.live.length = s.server.conferences_.items.length := by
    rw [h.conferences.items, List.length_map]
  rw [the_conferences_are_listed_iff_at_most_one_is_alive, ← hlen]
  exact and_iff_right fun p hp => h.conferences.alive_item hp

/-- The second of two conferences is written behind the array. -/
theorem two_conferences_do_not_fit : ∃ s,
    run step State.start [.conference_create, .conference_create] = .ok s ∧
      s.live.map Prod.fst = [0, 1] ∧ mcu_listConferences s.server = .error .outOfBounds ∧
      ¬ s.server.Lists := by
  refine ⟨_, rfl, rfl, rfl, ?_⟩
  intro h
  cases h

end zonekey_mcu.mcu_server
