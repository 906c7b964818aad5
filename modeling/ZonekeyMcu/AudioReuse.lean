-- A channel of the audio mixer that gets a new owner. The buffer of the channel is made
-- once, with the filter. So what the last owner left unread in it is the first thing that
-- the channel of the new owner gives to the mix.
import ZonekeyMcu.AudioHistories
import ZonekeyMcu.Lib.Returns

open returns runs unwinding zonekey_mcu.bufferizer

namespace zonekey_mcu.audio_mixer

variable {fmul : UInt32 → Int → Int} {f g : MSFilter} {but : Nat → Prop}

/-! ## The re-link -/

/-- While no ticker runs, no channel has a contribution. -/
def Idle (f : MSFilter) : Prop := f.attached = false → ∀ i, (f.data.channels i).input = []

theorem Idle.frame {f' : MSFilter} (h : Idle f) (ha : f'.attached = f.attached)
    (hin : ∀ i, (f'.data.channels i).input = (f.data.channels i).input) : Idle f' := by
  intro hdet i
  rw [hin i]
  exact h (ha ▸ hdet) i

theorem step_idle (fmul : UInt32 → Int → Int) (f : MSFilter) (op : Op) (f' : MSFilter)
    (h : Sane f ∧ Idle f) (hs : step fmul f op = .ok f') : Sane f' ∧ Idle f' := by
  refine ⟨step_sane fmul f op f' h.1 hs, ?_⟩
  have hidle := h.2
  cases op with
  | attach =>
    cases hs
    split
    · exact hidle
    · intro hdet
      cases hdet
  | detach =>
    cases hs
    split
    · exact fun _ _ => rfl
    · exact hidle
  | tick =>
    rcases tick_cases h.1 hs with ⟨-, rfl⟩ | ⟨ha, g, rfl, ht, -⟩
    · exact hidle
    · intro hdet
      rw [show (process_outputs g).attached = f.attached from ht.attached, ha] at hdet
      cases hdet
  | set_input_gain pin gain =>
    cases hs
    exact hidle.frame rfl (set_on_pin_keeps Channel.input pin fun _ => rfl)
  | set_active pin active =>
    cases hs
    exact hidle.frame rfl (set_on_pin_keeps Channel.input pin fun _ => rfl)
  | _ =>
    cases hs
    first
      | exact hidle.frame rfl fun _ => rfl
      | split
        · exact hidle
        · exact hidle.frame rfl fun _ => rfl

/-- What holds in the end of any history. -/
theorem history_sound {as : List Op} (hf : run (step fmul) MSFilter.new as = .ok f) :
    Sane f ∧ Idle f :=
  run_keeps (step_idle fmul) ⟨new_sane, fun _ _ => rfl⟩ hf

/-- Channel `ch` can be linked: no ticker runs, and no input is linked to it. -/
structure Free (f : MSFilter) (ch : Nat) : Prop where
  detached : f.attached = false
  unlinked : f.inputs ch = none

theorem Alike.free {ch : Nat} (h : Alike but f g) (hfree : Free f ch) : Free g ch := by
  refine ⟨h.attached ▸ hfree.detached, ?_⟩
  have hsome := h.linked ch
  rwa [hfree.unlinked, Option.isSome_none, eq_comm, Option.isSome_eq_false_iff,
    Option.isNone_iff_eq_none] at hsome

/-- With the same bytes left unread in the channel, nothing of its past is left. -/
theorem Alike.relink {ch : Nat} (h : Alike (· = ch) f g) (hf : Idle f) (hg : Idle g)
    (hfree : Free f ch) (hleft : audio_mixer.unread f ch = audio_mixer.unread g ch) :
    Alike (fun _ => False) f g := by
  refine ⟨h.nchannels, h.rate, h.bytespertick, h.purgeoffset, h.attached, h.gain, h.active,
    h.linked, h.listened, fun i _ => ?_, fun i _ => ?_, fun i _ => ?_⟩
  · by_cases hi : i = ch
    · rw [hi, hleft]
    · exact h.unread i hi
  · by_cases hi : i = ch
    · rw [hi, hfree.unlinked, (h.free hfree).unlinked]
    · exact h.queue i hi
  · rw [hf hfree.detached i, hg (h.attached ▸ hfree.detached) i]

/-! ## What is left is heard -/

theorem int16_inj {lo hi lo' hi' : UInt8} (h : int16 lo hi = int16 lo' hi') :
    lo = lo' ∧ hi = hi' := by
  have hlo := lo.toNat_lt
  have hhi := hi.toNat_lt
  have hlo' := lo'.toNat_lt
  have hhi' := hi'.toNat_lt
  unfold int16 at h
  have hnat : lo.toNat = lo'.toNat ∧ hi.toNat = hi'.toNat := by
    dsimp only at h
    split at h <;> split at h <;> omega
  exact ⟨UInt8.toNat_inj.mp hnat.1, UInt8.toNat_inj.mp hnat.2⟩

/-- Two blocks of whole samples with the same samples are the same. -/
theorem words_inj {xs ys : Bytes} (hlen : xs.length = ys.length) (heven : xs.length % 2 = 0)
    (h : words xs = words ys) : xs = ys := by
  fun_induction words xs generalizing ys with
  | case1 lo hi rest ih =>
    rcases ys with _ | ⟨lo', _ | ⟨hi', rest'⟩⟩
    · cases hlen
    · cases hlen
    · simp only [words, List.cons.injEq] at h
      obtain ⟨rfl, rfl⟩ := int16_inj h.1
      simp only [List.length_cons] at hlen heven
      rw [ih (by omega) (by omega) h.2]
  | case2 bs hbs =>
    rcases bs with _ | ⟨b, _ | ⟨hi, rest⟩⟩
    · exact (List.length_eq_zero_iff.mp hlen.symm).symm
    · cases heven
    · exact absurd rfl (hbs b hi rest)

/-- Bytes are known from what they look like with any filling. -/
theorem eq_of_filled {xs ys : Bytes} {b : Nat} (hx : xs.length ≤ b) (hy : ys.length ≤ b)
    (h : ∀ z : UInt8, (xs ++ List.replicate b z).take b = (ys ++ List.replicate b z).take b) :
    xs = ys := by
  wlog hle : xs.length ≤ ys.length generalizing xs ys
  · exact (this hy hx (fun z => (h z).symm) (by omega)).symm
  have hget : ∀ z : UInt8, ∀ i < b,
      (xs ++ List.replicate b z)[i]? = (ys ++ List.replicate b z)[i]? := by
    intro z i hi
    have := congrArg (fun l => l[i]?) (h z)
    simpa only [List.getElem?_take, hi, if_true] using this
  apply List.ext_getElem?
  intro i
  by_cases hxi : i < xs.length
  · have := hget 0 i (by omega)
    rwa [List.getElem?_append_left hxi, List.getElem?_append_left (by omega)] at this
  · by_cases hyi : i < ys.length
    · -- Here the filling of one side stands against a byte of the other.
      have hfill : ∀ z : UInt8, some z = ys[i]? := by
        intro z
        have := hget z i (by omega)
        rwa [List.getElem?_append_right (by omega), List.getElem?_append_left hyi,
          List.getElem?_replicate, if_pos (by omega)] at this
      have h01 : some (0 : UInt8) = some 1 := (hfill 0).trans (hfill 1).symm
      cases h01
    · rw [List.getElem?_eq_none (by omega), List.getElem?_eq_none (by omega)]

/-- The new owner of channel `ch` sends `b` bytes, in ticks of `b` bytes, at full gain. -/
def new_owner (ch b : Nat) (z : UInt8) : List Op :=
  [.set_rate (50 * b), .set_nchannels 1, .set_input_gain ch GAIN_ONE,
    .enqueue ch { data := List.replicate b z, b_cont := [] }, .attach]

theorem gain_set {s : MixerState} {ch : Nat} (hch : ch < MIXER_MAX_CHANNELS) (gain : UInt32) :
    (mixer_set_input_gain s ch gain).2 =
      s.set_channel ch { s.channels ch with gain } := by
  unfold mixer_set_input_gain set_on_pin
  rw [if_neg (by omega)]
  rfl

/-- The first tick of the new owner begins with what the last owner left. -/
theorem first_tick (fmul : UInt32 → Int → Int) (h : Sane f) {ch : Nat}
    (hch : ch < MIXER_MAX_CHANNELS) (hfree : Free f ch) (b : Nat) (z : UInt8) (heven : b % 2 = 0) :
    ∃ f₁ f₂, run (step fmul) f (.link_input ch :: new_owner ch b z) = .ok f₁ ∧
      step fmul f₁ .tick = .ok f₂ ∧
      (f₂.data.channels ch).input = words ((unread f ch ++ List.replicate b z).take b) := by
  have hrun : ∃ f₁, run (step fmul) f (.link_input ch :: new_owner ch b z) = .ok f₁ ∧
      f₁.attached = true ∧ f₁.data.bytespertick = b ∧
      (f₁.inputs ch) = some [{ data := List.replicate b z, b_cont := [] }] ∧
      unread f₁ ch = unread f ch ∧ (f₁.data.channels ch).gain = GAIN_ONE := by
    simp only [new_owner, run, step, hfree.detached, gain_set hch, Bool.false_eq_true, if_false]
    refine ⟨_, rfl, rfl, ?_, ?_, ?_, ?_⟩
    · simp only [mixer_preprocess, mixer_set_nchannels, mixer_set_rate, MixerState.set_channel,
        TICKER_INTERVAL]
      omega
    · simp [set_pin, linked, hfree.unlinked, ms_queue_put]
    · simp [unread, mixer_preprocess, channel_prepare, MixerState.set_channel, mixer_set_rate,
        mixer_set_nchannels]
    · simp [mixer_preprocess, channel_prepare, MixerState.set_channel]
  obtain ⟨f₁, hok, ha, hbytes, hin, hunread, hgain⟩ := hrun
  have hsane : Sane f₁ := run_keeps (step_sane fmul) h hok
  obtain ⟨f₂, htick⟩ := step_ok fmul hsane .tick
  refine ⟨f₁, f₂, hok, htick, ?_⟩
  rcases tick_cases hsane htick with ⟨hdet, -⟩ | ⟨-, g, rfl, -, hsum⟩
  · rw [ha] at hdet
    cases hdet
  · have hwords : f₁.data.nwords * 2 = b := by
      unfold MixerState.nwords
      rw [hbytes]
      omega
    have hheld : held f₁ ch = unread f ch ++ List.replicate b z := by
      unfold unread at hunread ⊢
      unfold held
      rw [hunread, hin]
      simp [mblk_t.bytes]
    have hfull : Full f₁ ch := by
      refine ⟨by rw [hin]; rfl, ?_⟩
      rw [hwords, hheld, List.length_append, List.length_replicate]
      omega
    change (g.data.channels ch).input = _
    rw [hsum.input ch hch hfull.1]
    unfold taken samples
    rw [if_neg fun hne => hne.2 hgain, if_pos hfull, hwords, hheld]

/-- What is heard after the re-link tells what the last owner left. -/
theorem left_is_heard {ch : Nat} (hch : ch < MIXER_MAX_CHANNELS) (hf : Sane f) (hg : Sane g)
    (hffree : Free f ch) (hgfree : Free g ch)
    (h : ∀ ops, observed (step fmul) (heard ch) f (.link_input ch :: ops) =
      observed (step fmul) (heard ch) g (.link_input ch :: ops)) : unread f ch = unread g ch := by
  have hb : ∃ b, b % 2 = 0 ∧ (unread f ch).length ≤ b ∧ (unread g ch).length ≤ b :=
    ⟨2 * ((unread f ch).length + (unread g ch).length), by omega, by omega, by omega⟩
  obtain ⟨b, heven, hbf, hbg⟩ := hb
  refine eq_of_filled hbf hbg fun z => ?_
  obtain ⟨f₁, f₂, hf₁, hf₂, hinf⟩ := first_tick fmul hf hch hffree b z heven
  obtain ⟨g₁, g₂, hg₁, hg₂, hing⟩ := first_tick fmul hg hch hgfree b z heven
  have hlast := obs_last_eq (h (new_owner ch b z ++ [.tick])) hf₁ hg₁ hf₂ hg₂
  have hinput : (f₂.data.channels ch).input = (g₂.data.channels ch).input :=
    congrArg Prod.fst hlast
  rw [hinf, hing] at hinput
  refine words_inj ?_ ?_ hinput
  · simp
  · simpa using heven

/-- Two histories that differ only in the audio of channel `ch`, which is free in the end. -/
theorem heard_same_iff {ch : Nat} (hch : ch < MIXER_MAX_CHANNELS) {as bs : List Op}
    (hsame : visible (sends ch) as = visible (sends ch) bs)
    (hf : run (step fmul) MSFilter.new as = .ok f) (hg : run (step fmul) MSFilter.new bs = .ok g)
    (hfree : Free f ch) :
    (∀ ops, observed (step fmul) (heard ch) f (.link_input ch :: ops) =
      observed (step fmul) (heard ch) g (.link_input ch :: ops)) ↔ unread f ch = unread g ch := by
  obtain ⟨hsf, hif⟩ := history_sound hf
  obtain ⟨hsg, hig⟩ := history_sound hg
  have halike : Alike (· = ch) f g := (unwinds_audio fmul ch).runs hsame new_sane new_sane
    (alike_equivalence.refl _) hf hg
  constructor
  · exact left_is_heard hch hsf hsg hfree (halike.free hfree)
  · intro hleft ops
    exact (halike.relink hif hig hfree hleft).observed hsf hsg (.link_input ch :: ops)

/-! ## A history without the audio of a channel -/

theorem kept_nil {i : Nat} (h : held f i = []) : kept f i = [] := by
  simp [kept, h]

theorem held_set_input {i j : Nat} {q : Option MSQueue}
    (h : i = j → queued (q.getD []) = queued ((f.inputs j).getD [])) :
    held { f with inputs := set_pin f.inputs j q } i = held f i := by
  unfold held set_pin
  by_cases hij : i = j
  · simp [hij, h hij]
  · simp [hij]

theorem held_unlink {i j : Nat} (h : held f i = []) :
    held { f with inputs := set_pin f.inputs j none } i = [] := by
  refine (held_set_input fun hij => ?_).trans h
  subst hij
  simpa using (List.append_eq_nil_iff.mp h).2.symm

theorem held_set_data {i : Nat} {data : MixerState}
    (h : (data.channels i).bufferizer = (f.data.channels i).bufferizer) :
    held { f with data } i = held f i := by
  simp only [held, h]

/-- A channel that holds nothing gets bytes only from an action that sends to it. -/
theorem step_mute {ch : Nat} {op : Op} {f' : MSFilter} (h : Sane f)
    (hop : sends ch op = false) (hs : step fmul f op = .ok f') (hm : held f ch = []) :
    held f' ch = [] := by
  cases op with
  | link_input i =>
    cases hs
    split
    · exact hm
    · refine (held_set_input fun _ => ?_).trans hm
      rfl
  | unlink_input i =>
    cases hs
    split
    · exact hm
    · exact held_unlink hm
  | enqueue i m =>
    cases hs
    have hne : ch ≠ i := fun hi => by simp [sends, hi] at hop
    exact (held_set_input fun hi => absurd hi hne).trans hm
  | tick =>
    rcases tick_cases h hs with ⟨-, rfl⟩ | ⟨-, g, rfl, ht, -⟩
    · exact hm
    · by_cases hlinked : ch < MIXER_MAX_CHANNELS ∧ (f.inputs ch).isSome = true
      · rw [(held_after ht hlinked.1 hlinked.2).1, kept_nil hm]
      · obtain ⟨hin, hchan⟩ := turns_unlinked ht hlinked
        have hheld : held (process_outputs g) ch = held f ch := by
          simp only [held, process_outputs, hin, hchan]
        rw [hheld, hm]
  | set_input_gain pin gain =>
    cases hs
    refine (held_set_data (set_on_pin_keeps Channel.bufferizer pin (fun _ => ?_) ch)).trans hm
    rfl
  | set_active pin active =>
    cases hs
    refine (held_set_data (set_on_pin_keeps Channel.bufferizer pin (fun _ => ?_) ch)).trans hm
    rfl
  | _ =>
    cases hs
    first
      | exact hm
      | split <;> exact hm

theorem mute_history {ch : Nat} {as : List Op} (has : ∀ op ∈ as, sends ch op = false)
    (hf : run (step fmul) MSFilter.new as = .ok f) : held f ch = [] := by
  refine (run_keeps_of_meets (I := fun f => Sane f ∧ held f ch = [])
    (C := fun _ op => sends ch op = false) ?_ ⟨new_sane, rfl⟩
    (meets_of_forall fun op hop _ => has op hop) hf).2
  intro f op f' h hop hs
  exact ⟨step_sane fmul f op f' h.1 hs, step_mute h.1 hop hs h.2⟩

/-! ## The law -/

/-- Take two histories that differ only in the audio that was sent to channel `ch`, and in
which the channel is free at the end. Whatever happens from the next link of the channel on,
its contributions and all outputs are the same in both, exactly when both histories leave the
same bytes unread in the buffer of the channel. -/
theorem owners_are_apart_iff_the_same_is_left (fmul : UInt32 → Int → Int) {ch : Nat}
    (hch : ch < MIXER_MAX_CHANNELS) {as bs : List Op}
    (hsame : visible (sends ch) as = visible (sends ch) bs) {f g : MSFilter}
    (hf : run (step fmul) MSFilter.new as = .ok f) (hg : run (step fmul) MSFilter.new bs = .ok g)
    (hfree : Free f ch) :
    (∀ ops, observed (step fmul) (heard ch) f (.link_input ch :: ops) =
      observed (step fmul) (heard ch) g (.link_input ch :: ops)) ↔ unread f ch = unread g ch :=
  heard_same_iff hch hsame hf hg hfree

/-- A new owner is heard as if nobody ever had sent to the channel before, exactly when
nothing is left unread in it. -/
theorem a_new_owner_is_alone_iff_nothing_is_left (fmul : UInt32 → Int → Int) {ch : Nat}
    (hch : ch < MIXER_MAX_CHANNELS) {as : List Op} {f g : MSFilter}
    (hf : run (step fmul) MSFilter.new as = .ok f)
    (hg : run (step fmul) MSFilter.new (visible (sends ch) as) = .ok g) (hfree : Free f ch) :
    (∀ ops, observed (step fmul) (heard ch) f (.link_input ch :: ops) =
      observed (step fmul) (heard ch) g (.link_input ch :: ops)) ↔ unread f ch = [] := by
  have hmute : held g ch = [] := mute_history (fun op hop => by simpa [visible] using
    (List.mem_filter.mp hop).2) hg
  have hnone : unread g ch = [] := (List.append_eq_nil_iff.mp hmute).1
  rw [heard_same_iff hch (visible_visible as).symm hf hg hfree, hnone]

/-- A history of the first owner of channel 0: one block, one tick, and the end. Channel 1
listens. -/
def first_owner (data : Bytes) : List Op :=
  [.link_input 0, .link_output 1, .attach, .enqueue 0 { data, b_cont := [] }, .tick, .detach,
    .unlink_input 0]

theorem first_owner_visible (data data' : Bytes) :
    visible (sends 0) (first_owner data) = visible (sends 0) (first_owner data') := rfl

/-- What an evaluation shows of the state that the first owner leaves. -/
theorem first_owner_leaves {β : Type} (p : MSFilter → β) (data : Bytes) (x : β)
    (h : (run (step fun _ s => s) MSFilter.new (first_owner data)).map
      (fun f => (f.attached, (f.inputs 0).isNone, p f)) = .ok (false, true, x)) :
    ∃ f, run (step fun _ s => s) MSFilter.new (first_owner data) = .ok f ∧ Free f 0 ∧ p f = x := by
  obtain ⟨f, hf, hend⟩ := map_inv h
  simp only [Prod.mk.injEq, Option.isNone_iff_eq_none] at hend
  exact ⟨f, hf, ⟨hend.1, hend.2.1⟩, hend.2.2⟩

/-- A block of one tick leaves nothing, so two such owners cannot be told apart. -/
theorem owners_are_apart_iff_the_same_is_left_example :
    ∃ f g, run (step fun _ s => s) MSFilter.new (first_owner (List.replicate 320 1)) = .ok f ∧
      run (step fun _ s => s) MSFilter.new (first_owner (List.replicate 320 2)) = .ok g ∧
      ∀ ops, observed (step fun _ s => s) (heard 0) f (.link_input 0 :: ops) =
        observed (step fun _ s => s) (heard 0) g (.link_input 0 :: ops) := by
  obtain ⟨f, hf, hfree, hleft⟩ :=
    first_owner_leaves (unread · 0) (List.replicate 320 1) [] (by decide +kernel)
  obtain ⟨g, hg, -, hleft'⟩ :=
    first_owner_leaves (unread · 0) (List.replicate 320 2) [] (by decide +kernel)
  refine ⟨f, g, hf, hg, ?_⟩
  exact (owners_are_apart_iff_the_same_is_left (fun _ s => s) (by decide)
    (first_owner_visible _ _) hf hg hfree).mpr (hleft.trans hleft'.symm)

/-- The bytes that output 1 gets in each step. -/
def bytes_out (fs : List (List Int × List (List mblk_t))) : List (List Bytes) :=
  fs.map fun h => (h.2.getD 1 []).map mblk_t.bytes

/-- A block of two ticks leaves one tick, and output 1 gets it in the first tick of the next
owner, who sends nothing. -/
theorem the_first_owner_is_heard_after_the_relink :
    ∃ f g, run (step fun _ s => s) MSFilter.new (first_owner (List.replicate 640 1)) = .ok f ∧
      run (step fun _ s => s) MSFilter.new (first_owner (List.replicate 640 2)) = .ok g ∧
      visible (sends 0) (first_owner (List.replicate 640 1)) =
        visible (sends 0) (first_owner (List.replicate 640 2)) ∧
      Free f 0 ∧ Free g 0 ∧
      bytes_out (observed (step fun _ s => s) (heard 0) f [.link_input 0, .attach, .tick]) =
        [[], [], [List.replicate 320 1]] ∧
      bytes_out (observed (step fun _ s => s) (heard 0) g [.link_input 0, .attach, .tick]) =
        [[], [], [List.replicate 320 2]] ∧
      ¬ ∀ ops, observed (step fun _ s => s) (heard 0) f (.link_input 0 :: ops) =
        observed (step fun _ s => s) (heard 0) g (.link_input 0 :: ops) := by
  obtain ⟨f, hf, hfree, hout⟩ := first_owner_leaves
    (fun f => bytes_out (observed (step fun _ s => s) (heard 0) f [.link_input 0, .attach, .tick]))
    (List.replicate 640 1) [[], [], [List.replicate 320 1]] (by decide +kernel)
  obtain ⟨g, hg, hfree', hout'⟩ := first_owner_leaves
    (fun f => bytes_out (observed (step fun _ s => s) (heard 0) f [.link_input 0, .attach, .tick]))
    (List.replicate 640 2) [[], [], [List.replicate 320 2]] (by decide +kernel)
  refine ⟨f, g, hf, hg, first_owner_visible _ _, hfree, hfree', hout, hout', fun hall => ?_⟩
  have hbytes := congrArg bytes_out (hall [.attach, .tick])
  rw [hout, hout'] at hbytes
  exact absurd hbytes (by decide +kernel)

end zonekey_mcu.audio_mixer
