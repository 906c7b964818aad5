-- Frames over a link that loses packets: the packets arrive in order, and some do not
-- arrive. The receiver never looks for a gap. It joins the fragments that arrive, so a
-- unit stays whole only when no packet was lost between its start and its end.
import ZonekeyMcu.Rfc3984RoundTrip
import ZonekeyMcu.Lib.Runs

namespace zonekey_mcu.rfc3984

open runs

/-- A sender, the packets on their way and a receiver. `packed` has every unit that was
packed, and `out` every unit that was put out. -/
structure Link where
  packed : List (List UInt8)
  todo : List Packet
  rx : Rfc3984Context
  /-- A packet was lost since the last start fragment arrived. -/
  gap : Bool
  out : List (List UInt8)

def Link.new (rx : Rfc3984Context) : Link :=
  { packed := [], todo := [], rx, gap := false, out := [] }

/-- A frame is packed and sent, or the next packet arrives, or the next packet is lost. -/
inductive Event
  | send (tx : Rfc3984Context) (naluq : List (List UInt8)) (ts : UInt32)
  | deliver
  | lose

/-- A FU-A fragment with the start bit. -/
def starts_unit : List UInt8 → Bool
  | indicator :: fu :: _ => nal_header_get_type indicator = TYPE_FU_A && fu >>> 7 != 0
  | _ => false

/-- A FU-A fragment with the end bit that is not a start. -/
def completes_unit : List UInt8 → Bool
  | indicator :: fu :: _ =>
    nal_header_get_type indicator = TYPE_FU_A && !(fu >>> 7 != 0) && (fu >>> 6) &&& 1 != 0
  | _ => false

def Link.step (s : Link) : Event → Except Fault Link
  | .send tx naluq ts => do
    let packets ← rfc3984_pack tx naluq ts
    return { s with todo := s.todo ++ packets, packed := s.packed ++ naluq }
  | .deliver =>
    match s.todo with
    | [] => .ok s
    | im :: todo => do
      let (rx, out) ← rfc3984_unpack s.rx im
      return { s with
        todo, rx, out := s.out ++ out, gap := s.gap && !starts_unit im.payload }
  | .lose =>
    match s.todo with
    | [] => .ok s
    | _ :: todo => .ok { s with todo, gap := true }

/-- The frames are made of NAL units, and a unit that waits is only completed when no
packet was lost since its start. -/
def Unbroken (s : Link) : Event → Prop
  | .send tx naluq _ =>
    (∀ nal ∈ naluq, nal_unit nal) ∧ (tx.stap_a_allowed = true → tx.maxsz ≤ 65535)
  | .deliver => ∀ im todo, s.todo = im :: todo → completes_unit im.payload = true →
      s.rx.m ≠ none → s.gap = false
  | .lose => True

/-! ## The invariant -/

/-- What the packets on their way will complete was packed, and so was what the receiver
has. The fragments that wait are those of the unit on the way, unless there is a gap. -/
structure Honest (s : Link) (cur : Option (List UInt8)) (nals : List (List UInt8)) : Prop where
  carries : Carries cur s.todo nals
  coming : ∀ nal ∈ nals, nal ∈ s.packed
  waiting : ∀ nal ∈ s.rx.q, nal ∈ s.packed
  gone : ∀ nal ∈ s.out, nal ∈ s.packed
  pending : s.gap = true ∨ s.rx.m = none ∨ s.rx.m = cur

theorem new_link_honest {rx : Rfc3984Context} (hq : rx.q = []) (hm : rx.m = none) :
    Honest (Link.new rx) none [] where
  carries := .done
  coming := fun _ h => absurd h List.not_mem_nil
  waiting := by
    intro nal h
    change nal ∈ rx.q at h
    rw [hq] at h
    exact absurd h List.not_mem_nil
  gone := fun _ h => absurd h List.not_mem_nil
  pending := .inr (.inl hm)

/-- The packets of a new frame go behind those on their way. -/
theorem honest_sent {s : Link} {cur : Option (List UInt8)} {nals : List (List UInt8)}
    (h : Honest s cur nals) {tx : Rfc3984Context} {naluq : List (List UInt8)} {ts : UInt32}
    {packets : List Packet} (hnals : ∀ nal ∈ naluq, nal_unit nal)
    (hmax : tx.stap_a_allowed = true → tx.maxsz ≤ 65535)
    (hok : rfc3984_pack tx naluq ts = .ok packets) :
    ∃ nals',
      Honest { s with todo := s.todo ++ packets, packed := s.packed ++ naluq } cur nals' := by
  obtain ⟨more, hmore, hmem⟩ := pack_carries hmax hnals hok
  refine ⟨nals ++ more, carries_append h.carries hmore, ?_, ?_, ?_, h.pending⟩
  · intro nal hnal
    rcases List.mem_append.mp hnal with hnal | hnal
    · exact List.mem_append_left _ (h.coming nal hnal)
    · exact List.mem_append_right _ (hmem nal hnal)
  · exact fun nal hnal => List.mem_append_left _ (h.waiting nal hnal)
  · exact fun nal hnal => List.mem_append_left _ (h.gone nal hnal)

/-- After a loss the stream goes on behind the lost packet. -/
theorem carries_tail {cur : Option (List UInt8)} {im : Packet} {todo : List Packet}
    {nals : List (List UInt8)} (h : Carries cur (im :: todo) nals) :
    ∃ cur' nals', Carries cur' todo nals' ∧ ∀ nal ∈ nals', nal ∈ nals := by
  cases h with
  | single _ hrest => exact ⟨_, _, hrest, fun _ h => List.mem_cons_of_mem _ h⟩
  | stapa _ hrest => exact ⟨_, _, hrest, fun _ h => List.mem_append_right _ h⟩
  | start _ hrest => exact ⟨_, _, hrest, fun _ h => h⟩
  | middle _ hrest => exact ⟨_, _, hrest, fun _ h => h⟩
  | last _ hrest => exact ⟨_, _, hrest, fun _ h => List.mem_cons_of_mem _ h⟩

theorem fragment_kind {m body : List UInt8} {start fin : Bool} {h : UInt8}
    (hm : Fragment m start fin h body) :
    starts_unit m = start ∧ completes_unit m = (!start && fin) := by
  obtain ⟨indicator, fu, rfl, htype, hstart, hfin, -⟩ := hm.shape
  unfold starts_unit completes_unit
  simp only [htype, hstart, hfin]
  exact ⟨by simp, by simp⟩

theorem stapa_starts_nothing {m : List UInt8} {nals : List (List UInt8)} (hm : Stapa m nals) :
    starts_unit m = false := by
  obtain ⟨h, rfl, htype⟩ := hm.shape
  cases stapa_body nals with
  | nil => rfl
  | cons fu body =>
    have hne : TYPE_STAP_A ≠ TYPE_FU_A := by decide
    simp [starts_unit, htype, hne]

/-- A packet arrives: what it adds to the queue of the receiver has to be packed, and what
it leaves waiting has to be what the stream goes on with. -/
theorem honest_delivered {s : Link} {im : Packet} {todo : List Packet}
    {cur cur' : Option (List UInt8)} {nals nals' : List (List UInt8)} (h : Honest s cur nals)
    {f : Option (List UInt8) → Option (List UInt8)}
    {g : Option (List UInt8) → List (List UInt8)}
    (hreceive : ∀ ctx, receive ctx im.payload =
      .ok { ctx with m := f ctx.m, q := ctx.q ++ g ctx.m })
    (hcarries : Carries cur' todo nals') (hcoming : ∀ nal ∈ nals', nal ∈ s.packed)
    (hadded : ∀ nal ∈ g s.rx.m, nal ∈ s.packed)
    (hpending : (s.gap && !starts_unit im.payload) = true ∨ f s.rx.m = none ∨ f s.rx.m = cur') :
    ∃ rx out, rfc3984_unpack s.rx im = .ok (rx, out) ∧
      Honest
        { s with todo, rx, out := s.out ++ out, gap := s.gap && !starts_unit im.payload }
        cur' nals' := by
  obtain ⟨rx, out, hok, hm, hq, -⟩ := unpack_of_receive hreceive s.rx
  have hall : ∀ nal ∈ out ++ rx.q, nal ∈ s.packed := by
    rw [hq]
    intro nal hnal
    rcases List.mem_append.mp hnal with hnal | hnal
    · exact h.waiting nal hnal
    · exact hadded nal hnal
  refine ⟨rx, out, hok, hcarries, hcoming, ?_, ?_, by rwa [hm]⟩
  · exact fun nal hnal => hall nal (List.mem_append_right _ hnal)
  · intro nal hnal
    rcases List.mem_append.mp hnal with hnal | hnal
    · exact h.gone nal hnal
    · exact hall nal (List.mem_append_left _ hnal)

/-- A packet that arrives keeps the invariant, when it does not complete a broken unit. -/
theorem deliver_keeps_honest {s : Link} {im : Packet} {todo : List Packet}
    {cur : Option (List UInt8)} {nals : List (List UInt8)} (h : Honest s cur nals)
    (htodo : s.todo = im :: todo)
    (hgap : completes_unit im.payload = true → s.rx.m ≠ none → s.gap = false) :
    ∃ rx out cur' nals', rfc3984_unpack s.rx im = .ok (rx, out) ∧
      Honest
        { s with todo, rx, out := s.out ++ out, gap := s.gap && !starts_unit im.payload }
        cur' nals' := by
  have hcarries := h.carries
  have hcoming := h.coming
  rw [htodo] at hcarries
  cases hcarries with
  | single him hrest =>
    obtain ⟨rx, out, hok, h'⟩ := honest_delivered h (f := fun _ => none) (g := fun _ => [_])
      (receive_single him) hrest (fun nal hnal => hcoming nal (List.mem_cons_of_mem _ hnal))
      (fun nal hnal => List.mem_singleton.mp hnal ▸ hcoming _ List.mem_cons_self)
      (.inr (.inl rfl))
    exact ⟨rx, out, _, _, hok, h'⟩
  | @stapa _ _ held _ him hrest =>
    obtain ⟨rx, out, hok, h'⟩ := honest_delivered h (f := id) (g := fun _ => held)
      (receive_stapa him) hrest (fun nal hnal => hcoming nal (List.mem_append_right _ hnal))
      (fun nal hnal => hcoming nal (List.mem_append_left _ hnal))
      (by rw [stapa_starts_nothing him, Bool.not_false, Bool.and_true]; exact h.pending)
    exact ⟨rx, out, _, _, hok, h'⟩
  | @start _ _ _ h₀ body him hrest =>
    obtain ⟨rx, out, hok, h'⟩ := honest_delivered h (f := fun _ => some (h₀ :: body))
      (g := fun _ => []) (receive_fragment him) hrest hcoming
      (fun nal hnal => absurd hnal List.not_mem_nil) (.inr (.inr rfl))
    exact ⟨rx, out, _, _, hok, h'⟩
  | @middle _ _ _ h₀ b body him hrest =>
    have hkind := (fragment_kind him).1
    have hpending : (s.gap && !starts_unit im.payload) = true ∨
        s.rx.m.map (· ++ body) = none ∨ s.rx.m.map (· ++ body) = some (b ++ body) := by
      rw [hkind, Bool.not_false, Bool.and_true]
      rcases h.pending with hgap | hm | hm
      · exact .inl hgap
      · exact .inr (.inl (by rw [hm]; rfl))
      · exact .inr (.inr (by rw [hm]; rfl))
    obtain ⟨rx, out, hok, h'⟩ := honest_delivered h (f := fun m => m.map (· ++ body))
      (g := fun _ => []) (receive_fragment him) hrest hcoming
      (fun nal hnal => absurd hnal List.not_mem_nil) hpending
    exact ⟨rx, out, _, _, hok, h'⟩
  | @last _ _ nals' h₀ b body him hrest =>
    -- nothing was lost since the start, so what waits is the front of the unit
    have hadded : ∀ nal ∈ (s.rx.m.map (· ++ body)).toList, nal ∈ s.packed := by
      intro nal hnal
      by_cases hm : s.rx.m = none
      · rw [hm] at hnal
        exact absurd hnal List.not_mem_nil
      · have hwhole : s.rx.m = some b := by
          rcases h.pending with hg | hm' | hm'
          · rw [hgap (fragment_kind him).2 hm] at hg
            cases hg
          · exact absurd hm' hm
          · exact hm'
        rw [hwhole] at hnal
        exact List.mem_singleton.mp hnal ▸ hcoming _ List.mem_cons_self
    obtain ⟨rx, out, hok, h'⟩ := honest_delivered h (f := fun _ => none)
      (g := fun m => (m.map (· ++ body)).toList) (receive_fragment him) hrest
      (fun nal hnal => hcoming nal (List.mem_cons_of_mem _ hnal)) hadded (.inr (.inl rfl))
    exact ⟨rx, out, _, _, hok, h'⟩

theorem step_keeps_honest {s t : Link} {a : Event} (hs : ∃ cur nals, Honest s cur nals)
    (hc : Unbroken s a) (h : s.step a = .ok t) : ∃ cur nals, Honest t cur nals := by
  obtain ⟨cur, nals, hs⟩ := hs
  cases a with
  | send tx naluq ts =>
    obtain ⟨packets, hok, h⟩ := bind_ok h
    cases h
    exact ⟨cur, honest_sent hs hc.1 hc.2 hok⟩
  | deliver =>
    unfold Link.step at h
    cases htodo : s.todo with
    | nil =>
      simp only [htodo] at h
      cases h
      exact ⟨cur, nals, hs⟩
    | cons im todo =>
      simp only [htodo] at h
      obtain ⟨rx, out, cur', nals', hok, hs'⟩ := deliver_keeps_honest hs htodo (hc im todo htodo)
      rw [hok, ok_bind] at h
      cases h
      exact ⟨cur', nals', hs'⟩
  | lose =>
    unfold Link.step at h
    cases htodo : s.todo with
    | nil =>
      simp only [htodo] at h
      cases h
      exact ⟨cur, nals, hs⟩
    | cons im todo =>
      simp only [htodo] at h
      cases h
      obtain ⟨cur', nals', hcarries, hmem⟩ := carries_tail (htodo ▸ hs.carries)
      exact ⟨cur', nals', hcarries, fun nal hnal => hs.coming nal (hmem nal hnal), hs.waiting,
        hs.gone, .inl rfl⟩

/-! ## The law -/

/-- In every run over a lossy link whose broken units are never completed, each unit that
the receiver puts out is one that was packed. -/
theorem no_unit_is_invented_unless_a_broken_one_is_completed (rx : Rfc3984Context)
    (hq : rx.q = []) (hm : rx.m = none) (as : List Event) (t : Link)
    (hc : Meets Link.step Unbroken (Link.new rx) as) (h : run Link.step (Link.new rx) as = .ok t) :
    ∀ nal ∈ t.out, nal ∈ t.packed := by
  have hinv : ∃ cur nals, Honest t cur nals :=
    run_keeps_of_meets (I := fun s => ∃ cur nals, Honest s cur nals)
      (fun _ _ _ hs hc h => step_keeps_honest hs hc h) ⟨none, [], new_link_honest hq hm⟩ hc h
  obtain ⟨cur, nals, ht⟩ := hinv
  exact ht.gone

/-- A unit in three fragments, all of them delivered. -/
theorem no_unit_is_invented_unless_a_broken_one_is_completed_example :
    ∃ t, run Link.step (Link.new (rfc3984_init 1440))
        [.send { rfc3984_init 4 with mode := 1 } [[0x65, 1, 2, 3, 4]] 9,
          .deliver, .deliver, .deliver] = .ok t ∧
      t.out = [[0x65, 1, 2, 3, 4]] ∧ ∀ nal ∈ t.out, nal ∈ t.packed := by
  obtain ⟨t, ht, hout, hc⟩ : ∃ t, run Link.step (Link.new (rfc3984_init 1440))
      [.send { rfc3984_init 4 with mode := 1 } [[0x65, 1, 2, 3, 4]] 9,
        .deliver, .deliver, .deliver] = .ok t ∧ t.out = [[0x65, 1, 2, 3, 4]] ∧
      Meets Link.step Unbroken (Link.new (rfc3984_init 1440))
        [.send { rfc3984_init 4 with mode := 1 } [[0x65, 1, 2, 3, 4]] 9,
          .deliver, .deliver, .deliver] := by
    refine ⟨_, rfl, rfl, ?_⟩
    refine meets_cons ⟨?_, fun h => by cases h⟩ rfl ?_
    · intro nal hnal
      cases List.mem_singleton.mp hnal
      exact ⟨by decide, by decide, by decide⟩
    · refine meets_cons (fun _ _ _ _ _ => rfl) rfl (meets_cons (fun _ _ _ _ _ => rfl) rfl ?_)
      exact meets_cons (fun _ _ _ _ _ => rfl) rfl (meets_nil _)
  exact ⟨t, ht, hout, no_unit_is_invented_unless_a_broken_one_is_completed _ rfl rfl _ t hc ht⟩

/-- The same unit with its middle fragment lost: a unit with a hole is put out. -/
theorem a_lost_middle_fragment_leaves_a_hole :
    ∃ t, run Link.step (Link.new (rfc3984_init 1440))
        [.send { rfc3984_init 4 with mode := 1 } [[0x65, 1, 2, 3, 4]] 9,
          .deliver, .lose, .deliver] = .ok t ∧
      t.packed = [[0x65, 1, 2, 3, 4]] ∧ t.out = [[0x65, 1, 4]] ∧
      ¬ ∀ nal ∈ t.out, nal ∈ t.packed := by
  refine ⟨_, rfl, rfl, rfl, ?_⟩
  decide

end zonekey_mcu.rfc3984
