-- The exchange of two pictures of a director conference: their streams change places, and
-- nothing else in the mixer changes.
import ZonekeyMcu.StreamCommands
import ZonekeyMcu.VideoChannels
import ZonekeyMcu.Refusals
import Mathlib.Logic.Equiv.Basic

open runs zonekey_mcu.members zonekey_mcu.options zonekey_mcu.director
open zonekey_mcu.video_mixer (CTX ChannelDesc InputSource)

namespace zonekey_mcu.conference

/-! ## Two channels of the mixer -/

/-- What the mixer tells about a channel in use. -/
def wanted (k : Nat) (s : InputSource) : ChannelDesc where
  id := k
  x := s.want_x_
  y := s.want_y_
  width := s.want_width_
  height := s.want_height_
  alpha := s.want_alpha_

/-- The mixer after two channels have changed places. -/
def exchanged (m : CTX) (k₁ k₂ : Nat) : CTX :=
  { m with channels_ := fun k =>
      placed (m.channels_ k) (wanted k (m.channels_ (Equiv.swap k₁ k₂ k))) }

section

variable {m : CTX} {k k₁ k₂ : Nat}

theorem get_channel_desc_employed (h : m.Employed k) :
    m.get_channel_desc k = some (wanted k (m.channels_ k)) := by
  obtain ⟨h0, h1, hidle⟩ := h
  rw [Int.toNat_natCast] at hidle
  unfold CTX.get_channel_desc
  rw [if_neg (by omega), Int.toNat_natCast]
  dsimp only
  rw [if_neg (by rw [hidle]; decide)]
  rfl

theorem set_channel_desc_employed (h : m.Employed k) (desc : ChannelDesc) :
    m.set_channel_desc { desc with id := k } =
      .ok (0, m.set_channel k (placed (m.channels_ k) desc)) := by
  rcases set_channel_desc_cases m { desc with id := k } with ⟨-, hno⟩ | ⟨-, hset⟩
  · exact absurd h hno
  · rw [hset]
    rfl

theorem employed_set_channel (h : m.Employed k) (desc : ChannelDesc) (k' : Nat) :
    (m.set_channel k' (placed (m.channels_ k') desc)).Employed k := by
  obtain ⟨h0, h1, hidle⟩ := h
  refine ⟨h0, h1, ?_⟩
  rw [Int.toNat_natCast] at hidle ⊢
  by_cases hk : k = k'
  · rw [hk, video_mixer.set_channel_self]
    rw [hk] at hidle
    exact hidle
  · rw [video_mixer.set_channel_ne _ _ hk]
    exact hidle

/-- The two calls of `set_channel_desc`, one after the other. -/
theorem set_both (m : CTX) (k₁ k₂ : Nat) :
    (m.set_channel k₁ (placed (m.channels_ k₁) (wanted k₂ (m.channels_ k₂)))).set_channel k₂
        (placed (m.channels_ k₂) (wanted k₁ (m.channels_ k₁))) = exchanged m k₁ k₂ := by
  unfold exchanged CTX.set_channel
  congr 1
  funext k
  by_cases h₂ : k = k₂
  · rw [if_pos h₂, h₂, Equiv.swap_apply_right]
    rfl
  · rw [if_neg h₂]
    by_cases h₁ : k = k₁
    · dsimp only
      rw [if_pos h₁, h₁, Equiv.swap_apply_left]
      rfl
    · dsimp only
      rw [if_neg h₁, Equiv.swap_apply_of_ne_of_ne h₁ h₂]
      rfl

/-- Places that change twice are back. -/
theorem exchanged_twice (m : CTX) (k₁ k₂ : Nat) : exchanged (exchanged m k₁ k₂) k₁ k₂ = m := by
  have hback : ∀ k, (exchanged (exchanged m k₁ k₂) k₁ k₂).channels_ k = m.channels_ k := by
    intro k
    unfold exchanged
    dsimp only
    rw [Equiv.swap_apply_self]
    rfl
  have hchannels := funext hback
  cases m
  exact congrArg (fun channels_ => CTX.mk channels_ _ _) hchannels

theorem exchanged_employed (h : m.Employed k) : (exchanged m k₁ k₂).Employed k := h

end

/-! ## The call -/

section

variable {c : Conference} {id₁ id₂ : Int} {s₁ s₂ : Stream}

theorem vs_exchange_named (htype : c.type = .CT_DIRECTOR)
    (hfind₁ : c.find_stream id₁ = .ok (some s₁)) (hfind₂ : c.find_stream id₂ = .ok (some s₂))
    (hvideo : s₁.payload_type = 100 ∧ s₂.payload_type = 100)
    (h₁ : c.filters.video_mixer.Employed s₁.channel_id)
    (h₂ : c.filters.video_mixer.Employed s₂.channel_id) (hne : s₁.channel_id ≠ s₂.channel_id) :
    c.vs_exchange_position id₁ id₂ = .ok (0, c.with_video_mixer
      (exchanged c.filters.video_mixer s₁.channel_id s₂.channel_id)) := by
  have hset := set_channel_desc_employed h₁
    (wanted s₂.channel_id (c.filters.video_mixer.channels_ s₂.channel_id))
  have hset' := set_channel_desc_employed (employed_set_channel h₂
      (wanted s₂.channel_id (c.filters.video_mixer.channels_ s₂.channel_id)) s₁.channel_id)
    (wanted s₁.channel_id (c.filters.video_mixer.channels_ s₁.channel_id))
  rw [video_mixer.set_channel_ne _ _ hne.symm, set_both] at hset'
  unfold Conference.vs_exchange_position
  rw [htype, hfind₁, hfind₂]
  simp only [ok_bind]
  rw [if_pos hvideo, get_channel_desc_employed h₁, get_channel_desc_employed h₂]
  dsimp only
  rw [hset, ok_bind]
  dsimp only
  rw [hset', ok_bind]
  rfl

theorem named_of_video_stream (hs : c.video_stream id₁ = some s₁) :
    (c.streams_.find? fun s => s.stream_id = id₁) = some s₁ ∧ s₁.payload_type = 100 := by
  unfold Conference.video_stream at hs
  rw [Option.filter_eq_some_iff] at hs
  exact ⟨hs.1, of_decide_eq_true hs.2⟩

theorem video_stream_of_named (hfind : (c.streams_.find? fun s => s.stream_id = id₁) = some s₁)
    (hv : s₁.payload_type = 100) : c.video_stream id₁ = some s₁ := by
  unfold Conference.video_stream
  rw [hfind, Option.filter_some, if_pos (decide_eq_true hv)]

/-- Two streams do not share a channel. -/
theorem Sound.channels_apart (h : Sound c) (hs₁ : c.video_stream id₁ = some s₁)
    (hs₂ : c.video_stream id₂ = some s₂) (hne : s₁ ≠ s₂) : s₁.channel_id ≠ s₂.channel_id := by
  have hmem : ∀ {id : Int} {s : Stream}, c.video_stream id = some s → s ∈ c.video_streams := by
    intro id s hs
    obtain ⟨hfind, hv⟩ := named_of_video_stream hs
    exact List.mem_filter.mpr ⟨List.mem_of_find?_eq_some hfind, decide_eq_true hv⟩
  have hnodup : c.video_streams.Nodup :=
    (List.Nodup.of_map Stream.ptr h.owned.streams_nodup).filter _
  intro hsame
  exact hne ((List.nodup_map_iff_inj_on hnodup).mp h.video_distinct _ (hmem hs₁) _ (hmem hs₂)
    hsame)

theorem Sound.exchange (h : Sound c) (htype : c.type = .CT_DIRECTOR)
    (hs₁ : c.video_stream id₁ = some s₁) (hs₂ : c.video_stream id₂ = some s₂) (hne : s₁ ≠ s₂) :
    ∃ m, m = exchanged c.filters.video_mixer s₁.channel_id s₂.channel_id ∧
      c.vs_exchange_position id₁ id₂ = .ok (0, c.with_video_mixer m) ∧
      (c.with_video_mixer m).vs_exchange_position id₁ id₂ = .ok (0, c) := by
  obtain ⟨hfind₁, hv₁⟩ := named_of_video_stream hs₁
  obtain ⟨hfind₂, hv₂⟩ := named_of_video_stream hs₂
  have hstream₁ := h.owned.find_stream id₁
  have hstream₂ := h.owned.find_stream id₂
  rw [hfind₁] at hstream₁
  rw [hfind₂] at hstream₂
  have hemp₁ := h.video_employed (List.mem_of_find?_eq_some hfind₁) hv₁
  have hemp₂ := h.video_employed (List.mem_of_find?_eq_some hfind₂) hv₂
  have hapart := h.channels_apart hs₁ hs₂ hne
  refine ⟨_, rfl, vs_exchange_named htype hstream₁ hstream₂ ⟨hv₁, hv₂⟩ hemp₁ hemp₂ hapart, ?_⟩
  have hagain : (c.with_video_mixer (exchanged c.filters.video_mixer s₁.channel_id
        s₂.channel_id)).vs_exchange_position id₁ id₂ =
      .ok (0, c.with_video_mixer (exchanged (exchanged c.filters.video_mixer s₁.channel_id
        s₂.channel_id) s₁.channel_id s₂.channel_id)) :=
    vs_exchange_named htype hstream₁ hstream₂ ⟨hv₁, hv₂⟩ (exchanged_employed hemp₁)
      (exchanged_employed hemp₂) hapart
  rw [hagain, exchanged_twice]
  rfl

end

/-! ## The law -/

/-- Two channels have changed their places, and nothing else is different. -/
structure PlacesExchanged (m m' : CTX) (k₁ k₂ : Nat) : Prop where
  first : ∃ desc, m.get_channel_desc k₂ = some desc ∧
    m'.get_channel_desc k₁ = some { desc with id := k₁ }
  second : ∃ desc, m.get_channel_desc k₁ = some desc ∧
    m'.get_channel_desc k₂ = some { desc with id := k₂ }
  others : ∀ k, k ≠ k₁ → k ≠ k₂ → m'.channels_ k = m.channels_ k
  in_use : ∀ k, (m'.channels_ k).idle_ = (m.channels_ k).idle_ ∧
    (m'.channels_ k).valid_ = (m.channels_ k).valid_
  zorder : m'.zorder_ = m.zorder_
  setting : m'.setting = m.setting

theorem exchanged_places {m : CTX} {k₁ k₂ : Nat} (h₁ : m.Employed k₁) (h₂ : m.Employed k₂) :
    PlacesExchanged m (exchanged m k₁ k₂) k₁ k₂ := by
  refine ⟨⟨_, get_channel_desc_employed h₂, ?_⟩, ⟨_, get_channel_desc_employed h₁, ?_⟩, ?_,
    fun k => ⟨rfl, rfl⟩, rfl, rfl⟩
  · rw [get_channel_desc_employed (exchanged_employed h₁)]
    unfold exchanged
    dsimp only
    rw [Equiv.swap_apply_left]
    rfl
  · rw [get_channel_desc_employed (exchanged_employed h₂)]
    unfold exchanged
    dsimp only
    rw [Equiv.swap_apply_right]
    rfl
  · intro k hne₁ hne₂
    unfold exchanged
    dsimp only
    rw [Equiv.swap_apply_of_ne_of_ne hne₁ hne₂]
    rfl

/-- In every director conference that a run reaches, an exchange of two video streams swaps their
places and nothing else, a second one takes it back, and an exchange with an id that names no
video stream fails and changes nothing. -/
theorem an_exchange_swaps_two_places {env : Env} {want_alpha : Nat → Int} {id : Int}
    {calls : List Call} {c : Conference}
    (hrun : run step (Conference.new .CT_DIRECTOR env want_alpha id) calls = .ok c)
    (id₁ id₂ : Int) :
    (∀ s₁ s₂, c.video_stream id₁ = some s₁ → c.video_stream id₂ = some s₂ → s₁ ≠ s₂ → ∃ m,
      c.vs_exchange_position id₁ id₂ = .ok (0, c.with_video_mixer m) ∧
      PlacesExchanged c.filters.video_mixer m s₁.channel_id s₂.channel_id ∧
      (c.with_video_mixer m).vs_exchange_position id₁ id₂ = .ok (0, c)) ∧
    (c.video_stream id₁ = none ∨ c.video_stream id₂ = none →
      c.vs_exchange_position id₁ id₂ = .ok (-1, c)) := by
  have h := sound_run hrun
  have htype := run_kind hrun
  constructor
  · intro s₁ s₂ hs₁ hs₂ hne
    obtain ⟨hfind₁, hv₁⟩ := named_of_video_stream hs₁
    obtain ⟨hfind₂, hv₂⟩ := named_of_video_stream hs₂
    obtain ⟨m, rfl, hcall, hback⟩ := h.exchange htype hs₁ hs₂ hne
    refine ⟨_, hcall, exchanged_places ?_ ?_, hback⟩
    · exact h.video_employed (List.mem_of_find?_eq_some hfind₁) hv₁
    · exact h.video_employed (List.mem_of_find?_eq_some hfind₂) hv₂
  · intro hnone
    refine h.owned.vs_exchange_refused ?_
    rintro (hfree | ⟨s₁, s₂, hfind₁, hfind₂, hv₁, hv₂⟩)
    · rw [htype] at hfree
      cases hfree
    · rw [video_stream_of_named hfind₁ hv₁, video_stream_of_named hfind₂ hv₂] at hnone
      simp at hnone

/-- Streams 2 and 4 change places. -/
theorem an_exchange_swaps_two_places_example : ∃ c s₁ s₂ m,
    run step (Conference.new .CT_DIRECTOR Env.still (fun _ => 255) 1)
      [.addStream Env.still [("payload", "100")], .addStream Env.still [("payload", "100")]] =
        .ok c ∧
      c.video_stream 2 = some s₁ ∧ c.video_stream 4 = some s₂ ∧
      c.vs_exchange_position 2 4 = .ok (0, c.with_video_mixer m) ∧
      PlacesExchanged c.filters.video_mixer m s₁.channel_id s₂.channel_id := by
  obtain ⟨c, s₁, s₂, hrun, hs₁, hs₂, hne⟩ : ∃ c s₁ s₂,
      run step (Conference.new .CT_DIRECTOR Env.still (fun _ => 255) 1)
        [.addStream Env.still [("payload", "100")], .addStream Env.still [("payload", "100")]] =
          .ok c ∧
        c.video_stream 2 = some s₁ ∧ c.video_stream 4 = some s₂ ∧ s₁.ptr ≠ s₂.ptr :=
    ⟨_, _, _, rfl, rfl, rfl, by decide⟩
  obtain ⟨m, hcall, hplaces, -⟩ := (an_exchange_swaps_two_places hrun 2 4).1 s₁ s₂ hs₁ hs₂
    fun hsame => hne (congrArg Stream.ptr hsame)
  exact ⟨c, s₁, s₂, m, hrun, hs₁, hs₂, hcall, hplaces⟩

end zonekey_mcu.conference
