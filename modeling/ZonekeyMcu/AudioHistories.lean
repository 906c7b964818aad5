-- Two runs of the audio mixer, side by side. Histories that differ only in the audio of
-- one channel keep all the rest alike, and states that are alike in all channels are heard
-- the same from then on.
import ZonekeyMcu.AudioTick
import ZonekeyMcu.Lib.Unwinding

open runs unwinding zonekey_mcu.bufferizer

namespace zonekey_mcu.audio_mixer

variable {fmul : UInt32 → Int → Int} {f g : MSFilter}

/-! ## What a tick takes, with any gain -/

/-- The samples that channel `i` gives to a tick that starts in `f`. -/
def taken (fmul : UInt32 → Int → Int) (f : MSFilter) (i : Nat) : List Int :=
  if Speaks f i ∧ (f.data.channels i).gain ≠ GAIN_ONE then
    apply_gain fmul (f.data.channels i).gain (samples f i)
  else samples f i

/-- The sum after the turns of the first `k` inputs. -/
def total (fmul : UInt32 → Int → Int) (f : MSFilter) : Nat → List Int
  | 0 => List.replicate f.data.nwords 0
  | k + 1 =>
    if Speaks f k ∧ f.data.nwords ≠ 0 then accumulate (total fmul f k) (taken fmul f k)
    else total fmul f k

/-- What the turns of the first `k` inputs leave in `g`, with any gain. -/
structure Summed (fmul : UInt32 → Int → Int) (f : MSFilter) (k : Nat) (g : MSFilter) : Prop where
  sum : g.data.sum = total fmul f k
  input : ∀ i < k, (f.inputs i).isSome = true → (g.data.channels i).input = taken fmul f i
  nchannels : g.data.nchannels = f.data.nchannels
  rate : g.data.rate = f.data.rate

theorem summed_succ {g' : MSFilter} {k : Nat} (h : Sane f) (ht : Turns f k g)
    (hs : Summed fmul f k g) (hok : process_input fmul g k = .ok g') :
    Summed fmul f (k + 1) g' := by
  obtain ⟨hin, hchan⟩ := ht.same k (Or.inl (Nat.le_refl k))
  unfold process_input at hok
  rw [hin] at hok
  cases hq : f.inputs k with
  | none =>
    rw [hq] at hok
    cases hok
    have hsilent : ¬ Speaks f k := fun hsp => unlinked_not_full hq hsp.2
    refine ⟨?_, ?_, hs.nchannels, hs.rate⟩
    · rw [hs.sum, total, if_neg fun hall => hsilent hall.1]
    · intro i hi hlinked
      have hne : i ≠ k := fun hik => by
        rw [hik, hq] at hlinked
        cases hlinked
      exact hs.input i (by omega) hlinked
  | some q =>
    have hwords : g.data.nwords = f.data.nwords := by
      unfold MixerState.nwords
      rw [ht.bytespertick]
    have hheld : queued (f.data.channels k).bufferizer.q ++ queued q = held f k := by
      simp [held, hq]
    have hfull := linked_full hq
    obtain ⟨r, chan, sum, hread, htook⟩ :=
      channel_process_in_took fmul q g.data.sum f.data.nwords (h.counted k)
    simp only [hq, hchan, hwords, hread] at hok
    cases hok
    rw [hheld] at htook
    have htaken : chan.input = taken fmul f k := by
      rw [htook.input]
      unfold taken samples Speaks
      by_cases hf : Full f k
      · simp only [hf, hfull.mp hf, and_true, if_true]
      · simp only [hf, mt hfull.mpr hf, and_false, false_and, if_false]
    refine ⟨?_, ?_, hs.nchannels, hs.rate⟩
    · change sum = _
      rw [htook.sum, hs.sum, htaken, total]
      simp only [Speaks, hfull, and_assoc, and_comm]
    · intro i hi hlinked
      by_cases hik : i = k
      · subst hik
        simpa [MixerState.set_channel] using htaken
      · simpa [MixerState.set_channel, hik] using hs.input i (by omega) hlinked

theorem process_inputs_summed (h : Sane f) {k : Nat} (hk : k ≤ MIXER_MAX_CHANNELS) :
    ∃ g, process_inputs fmul f.clear_sum k = .ok g ∧ Turns f k g ∧ Summed fmul f k g := by
  induction k with
  | zero => exact ⟨_, rfl, turns_zero f, rfl,
      fun i hi => absurd hi (Nat.not_lt_zero i), rfl, rfl⟩
  | succ k ih =>
    obtain ⟨g, hg, ht, hs⟩ := ih (by omega)
    obtain ⟨g', hg', ht'⟩ := turns_succ fmul ht (by omega) (h.counted k)
    refine ⟨g', ?_, ht', summed_succ h ht hs hg'⟩
    simp only [process_inputs, hg, hg']

/-- A tick never faults. -/
theorem process_summed (fmul : UInt32 → Int → Int) (h : Sane f) :
    ∃ g, mixer_process fmul f = .ok (process_outputs g) ∧
      Turns f MIXER_MAX_CHANNELS g ∧ Summed fmul f MIXER_MAX_CHANNELS g := by
  obtain ⟨g, hg, ht, hs⟩ := process_inputs_summed h (Nat.le_refl _)
  refine ⟨g, ?_, ht, hs⟩
  unfold mixer_process
  simp only [hg]
  rw [if_pos (ht.mode.trans h.mode)]

/-- All that a tick can do. -/
theorem tick_cases {f' : MSFilter} (h : Sane f) (hs : step fmul f .tick = .ok f') :
    (f.attached = false ∧ f' = f) ∨ (f.attached = true ∧ ∃ g, f' = process_outputs g ∧
      Turns f MIXER_MAX_CHANNELS g ∧ Summed fmul f MIXER_MAX_CHANNELS g) := by
  cases ha : f.attached with
  | false =>
    simp only [step, ha, Bool.false_eq_true, if_false] at hs
    cases hs
    exact Or.inl ⟨rfl, rfl⟩
  | true =>
    obtain ⟨g, hok, ht, hsum⟩ := process_summed fmul h
    simp only [step, ha, if_true, hok] at hs
    cases hs
    exact Or.inr ⟨rfl, g, rfl, ht, hsum⟩

/-! ## Two states that differ in the audio of some channels -/

/-- The bytes in the buffer of channel `i`, which no tick has read. -/
def unread (f : MSFilter) (i : Nat) : Bytes := queued (f.data.channels i).bufferizer.q

/-- The two states are the same, but for the audio of the channels `but`, and for what the
ticks have already put out. -/
structure Alike (but : Nat → Prop) (f g : MSFilter) : Prop where
  nchannels : f.data.nchannels = g.data.nchannels
  rate : f.data.rate = g.data.rate
  bytespertick : f.data.bytespertick = g.data.bytespertick
  purgeoffset : f.data.purgeoffset = g.data.purgeoffset
  attached : f.attached = g.attached
  gain : ∀ i, (f.data.channels i).gain = (g.data.channels i).gain
  active : ∀ i, (f.data.channels i).active = (g.data.channels i).active
  linked : ∀ i, (f.inputs i).isSome = (g.inputs i).isSome
  listened : ∀ i, (f.outputs i).isSome = (g.outputs i).isSome
  unread : ∀ i, ¬ but i → unread f i = unread g i
  queue : ∀ i, ¬ but i → f.inputs i = g.inputs i
  input : ∀ i, ¬ but i → (f.data.channels i).input = (g.data.channels i).input

variable {but : Nat → Prop}

theorem alike_equivalence : Equivalence (Alike but) where
  refl _ := ⟨rfl, rfl, rfl, rfl, rfl, fun _ => rfl, fun _ => rfl, fun _ => rfl, fun _ => rfl,
    fun _ _ => rfl, fun _ _ => rfl, fun _ _ => rfl⟩
  symm h := ⟨h.nchannels.symm, h.rate.symm, h.bytespertick.symm, h.purgeoffset.symm,
    h.attached.symm, fun i => (h.gain i).symm, fun i => (h.active i).symm,
    fun i => (h.linked i).symm, fun i => (h.listened i).symm, fun i hi => (h.unread i hi).symm,
    fun i hi => (h.queue i hi).symm, fun i hi => (h.input i hi).symm⟩
  trans h h' := ⟨h.nchannels.trans h'.nchannels, h.rate.trans h'.rate,
    h.bytespertick.trans h'.bytespertick, h.purgeoffset.trans h'.purgeoffset,
    h.attached.trans h'.attached, fun i => (h.gain i).trans (h'.gain i),
    fun i => (h.active i).trans (h'.active i), fun i => (h.linked i).trans (h'.linked i),
    fun i => (h.listened i).trans (h'.listened i),
    fun i hi => (h.unread i hi).trans (h'.unread i hi),
    fun i hi => (h.queue i hi).trans (h'.queue i hi),
    fun i hi => (h.input i hi).trans (h'.input i hi)⟩

theorem Alike.nwords (h : Alike but f g) : f.data.nwords = g.data.nwords := by
  unfold MixerState.nwords
  rw [h.bytespertick]

theorem Alike.held {i : Nat} (h : Alike but f g) (hi : ¬ but i) : held f i = held g i := by
  have := h.unread i hi
  unfold audio_mixer.unread at this
  unfold audio_mixer.held
  rw [this, h.queue i hi]

theorem Alike.full {i : Nat} (h : Alike but f g) (hi : ¬ but i) : Full f i ↔ Full g i := by
  unfold Full
  rw [h.linked i, h.nwords, h.held hi]

theorem Alike.speaks {i : Nat} (h : Alike but f g) (hi : ¬ but i) : Speaks f i ↔ Speaks g i := by
  unfold Speaks
  rw [h.active i, h.full hi]

theorem Alike.samples {i : Nat} (h : Alike but f g) (hi : ¬ but i) : samples f i = samples g i := by
  unfold audio_mixer.samples
  simp only [h.full hi, h.nwords, h.held hi]

theorem Alike.taken {i : Nat} (h : Alike but f g) (hi : ¬ but i) :
    taken fmul f i = taken fmul g i := by
  unfold audio_mixer.taken
  simp only [h.speaks hi, h.gain i, h.samples hi]

theorem Alike.kept {i : Nat} (h : Alike but f g) (hi : ¬ but i) : kept f i = kept g i := by
  unfold audio_mixer.kept
  simp only [h.full hi, h.nwords, h.held hi, h.purgeoffset]

theorem Alike.total (h : Alike but f g) (hall : ∀ i, ¬ but i) (k : Nat) :
    total fmul f k = total fmul g k := by
  induction k with
  | zero => simp only [audio_mixer.total, h.nwords]
  | succ k ih => simp only [audio_mixer.total, h.speaks (hall k), h.nwords, ih, h.taken (hall k)]

/-! ## Each step keeps two states alike -/

theorem turns_unlinked (ht : Turns f MIXER_MAX_CHANNELS g) {i : Nat}
    (h : ¬ (i < MIXER_MAX_CHANNELS ∧ (f.inputs i).isSome = true)) :
    g.inputs i = f.inputs i ∧ g.data.channels i = f.data.channels i := by
  apply ht.same
  by_cases hi : i < MIXER_MAX_CHANNELS
  · right
    cases hq : f.inputs i with
    | none => rfl
    | some q => exact absurd ⟨hi, by rw [hq]; rfl⟩ h
  · exact Or.inl (by omega)

/-- A tick of two states that are alike. -/
theorem Alike.tick {f' g' : MSFilter} (h : Alike but f g) (htf : Turns f MIXER_MAX_CHANNELS f')
    (hsf : Summed fmul f MIXER_MAX_CHANNELS f') (htg : Turns g MIXER_MAX_CHANNELS g')
    (hsg : Summed fmul g MIXER_MAX_CHANNELS g') : Alike but f' g' := by
  have hturn : ∀ i, ¬ but i → audio_mixer.unread f' i = audio_mixer.unread g' i ∧
      f'.inputs i = g'.inputs i ∧ (f'.data.channels i).input = (g'.data.channels i).input := by
    intro i hi
    by_cases hlinked : i < MIXER_MAX_CHANNELS ∧ (f.inputs i).isSome = true
    · have hlinked' : (g.inputs i).isSome = true := by
        rw [← h.linked i]
        exact hlinked.2
      obtain ⟨hinf, hbuff, -⟩ := htf.turn i hlinked.1 hlinked.2
      obtain ⟨hing, hbufg, -⟩ := htg.turn i hlinked.1 hlinked'
      refine ⟨?_, hinf.trans hing.symm, ?_⟩
      · exact hbuff.queue.trans ((h.kept hi).trans hbufg.queue.symm)
      · rw [hsf.input i hlinked.1 hlinked.2, hsg.input i hlinked.1 hlinked', h.taken hi]
    · obtain ⟨hinf, hchanf⟩ := turns_unlinked htf hlinked
      obtain ⟨hing, hchang⟩ := turns_unlinked htg (by rwa [h.linked i] at hlinked)
      unfold audio_mixer.unread
      rw [hinf, hing, hchanf, hchang]
      exact ⟨h.unread i hi, h.queue i hi, h.input i hi⟩
  have hlinks : ∀ i, (f'.inputs i).isSome = (g'.inputs i).isSome := by
    intro i
    by_cases hlinked : i < MIXER_MAX_CHANNELS ∧ (f.inputs i).isSome = true
    · rw [(htf.turn i hlinked.1 hlinked.2).1,
        (htg.turn i hlinked.1 (by rw [← h.linked i]; exact hlinked.2)).1]
    · rw [(turns_unlinked htf hlinked).1,
        (turns_unlinked htg (by rwa [h.linked i] at hlinked)).1, h.linked i]
  exact ⟨by rw [hsf.nchannels, hsg.nchannels, h.nchannels], by rw [hsf.rate, hsg.rate, h.rate],
    by rw [htf.bytespertick, htg.bytespertick, h.bytespertick],
    by rw [htf.purgeoffset, htg.purgeoffset, h.purgeoffset],
    by rw [htf.attached, htg.attached, h.attached],
    fun i => by rw [htf.gain, htg.gain, h.gain], fun i => by rw [htf.active, htg.active, h.active],
    hlinks, fun i => by rw [htf.outputs, htg.outputs, h.listened], fun i hi => (hturn i hi).1,
    fun i hi => (hturn i hi).2.1, fun i hi => (hturn i hi).2.2⟩

/-- The second loop adds one message to each linked output. -/
theorem Alike.process_outputs (h : Alike but f g) :
    Alike but (process_outputs f) (process_outputs g) := by
  refine ⟨h.nchannels, h.rate, h.bytespertick, h.purgeoffset, h.attached, h.gain, h.active,
    h.linked, fun i => ?_, h.unread, h.queue, h.input⟩
  unfold audio_mixer.process_outputs
  by_cases hi : i < MIXER_MAX_CHANNELS
  · simpa [hi] using h.listened i
  · simpa [hi] using h.listened i

theorem Alike.set_input {i : Nat} {q q' : Option MSQueue} (h : Alike but f g)
    (hsome : q.isSome = q'.isSome) (hq : ¬ but i → q = q') :
    Alike but { f with inputs := set_pin f.inputs i q }
      { g with inputs := set_pin g.inputs i q' } := by
  refine ⟨h.nchannels, h.rate, h.bytespertick, h.purgeoffset, h.attached, h.gain, h.active,
    fun j => ?_, h.listened, h.unread, fun j hj => ?_, h.input⟩
  · by_cases hji : j = i
    · simpa [set_pin, hji] using hsome
    · simpa [set_pin, hji] using h.linked j
  · by_cases hji : j = i
    · simpa [set_pin, hji] using hq (hji ▸ hj)
    · simpa [set_pin, hji] using h.queue j hj

theorem Alike.set_output {i : Nat} {q q' : Option MSQueue} (h : Alike but f g)
    (hsome : q.isSome = q'.isSome) : Alike but { f with outputs := set_pin f.outputs i q }
      { g with outputs := set_pin g.outputs i q' } := by
  refine ⟨h.nchannels, h.rate, h.bytespertick, h.purgeoffset, h.attached, h.gain, h.active,
    h.linked, fun j => ?_, h.unread, h.queue, h.input⟩
  by_cases hji : j = i
  · simpa [set_pin, hji] using hsome
  · simpa [set_pin, hji] using h.listened j

/-- A method on a pin leaves what it does not set as it was, in all channels. -/
theorem set_on_pin_keeps {β : Type} (p : Channel → β) {s : MixerState} {set : Channel → Channel}
    (pin : Int) (hp : ∀ chan, p (set chan) = p chan) (i : Nat) :
    p ((set_on_pin s pin set).2.channels i) = p (s.channels i) := by
  unfold set_on_pin
  split
  · rfl
  · by_cases hi : i = pin.toNat
    · simp [MixerState.set_channel, hi, hp]
    · simp [MixerState.set_channel, hi]

/-- A method on a pin that changes no audio of the channel. -/
theorem Alike.set_on_pin {pin : Int} {set : Channel → Channel} (h : Alike but f g)
    (hb : ∀ chan, (set chan).bufferizer = chan.bufferizer)
    (hin : ∀ chan, (set chan).input = chan.input)
    (hg : ∀ c d : Channel, c.gain = d.gain → (set c).gain = (set d).gain)
    (ha : ∀ c d : Channel, c.active = d.active → (set c).active = (set d).active) :
    Alike but { f with data := (set_on_pin f.data pin set).2 }
      { g with data := (set_on_pin g.data pin set).2 } := by
  unfold audio_mixer.set_on_pin
  split
  · exact h
  · refine ⟨h.nchannels, h.rate, h.bytespertick, h.purgeoffset, h.attached, fun i => ?_,
      fun i => ?_, h.linked, h.listened, fun i hi => ?_, h.queue, fun i hi => ?_⟩
    · by_cases hp : i = pin.toNat
      · simpa [MixerState.set_channel, hp] using hg _ _ (h.gain _)
      · simpa [MixerState.set_channel, hp] using h.gain i
    · by_cases hp : i = pin.toNat
      · simpa [MixerState.set_channel, hp] using ha _ _ (h.active _)
      · simpa [MixerState.set_channel, hp] using h.active i
    · have := h.unread i hi
      by_cases hp : i = pin.toNat
      · simpa [audio_mixer.unread, MixerState.set_channel, hp, hb] using hp ▸ this
      · simpa [audio_mixer.unread, MixerState.set_channel, hp] using this
    · have := h.input i hi
      by_cases hp : i = pin.toNat
      · simpa [MixerState.set_channel, hp, hin] using hp ▸ this
      · simpa [MixerState.set_channel, hp] using this

theorem Alike.preprocess (h : Alike but f g) :
    Alike but { f with data := mixer_preprocess f.data, attached := true }
      { g with data := mixer_preprocess g.data, attached := true } := by
  refine ⟨h.nchannels, h.rate, ?_, ?_, rfl, h.gain, h.active, h.linked, h.listened, h.unread,
    h.queue, fun _ _ => ?_⟩ <;>
  simp only [mixer_preprocess, channel_prepare, h.nchannels, h.rate]

theorem Alike.postprocess (h : Alike but f g) :
    Alike but { f with data := mixer_postprocess f.data, attached := false }
      { g with data := mixer_postprocess g.data, attached := false } :=
  ⟨h.nchannels, h.rate, h.bytespertick, h.purgeoffset, rfl, h.gain, h.active, h.linked,
    h.listened, h.unread, h.queue, fun _ _ => rfl⟩

/-- A change that waits while a ticker runs. -/
theorem Alike.detached {f₁ f₂ g₁ g₂ : MSFilter} (h : Alike but f g) (hyes : Alike but f₁ g₁)
    (hno : Alike but f₂ g₂) :
    Alike but (if f.attached then f₁ else f₂) (if g.attached then g₁ else g₂) := by
  rw [h.attached]
  split
  · exact hyes
  · exact hno

theorem Alike.step {op : Op} {f' g' : MSFilter} (hf : Sane f) (hg : Sane g) (h : Alike but f g)
    (hsf : step fmul f op = .ok f') (hsg : step fmul g op = .ok g') : Alike but f' g' := by
  cases op with
  | link_input i =>
    cases hsf
    cases hsg
    refine h.detached h (h.set_input ?_ fun hi => ?_)
    · simp [audio_mixer.linked]
    · rw [h.queue i hi]
  | unlink_input i =>
    cases hsf
    cases hsg
    exact h.detached h (h.set_input rfl fun _ => rfl)
  | link_output i =>
    cases hsf
    cases hsg
    exact h.detached h (h.set_output (by simp [audio_mixer.linked]))
  | unlink_output i =>
    cases hsf
    cases hsg
    exact h.detached h (h.set_output rfl)
  | attach =>
    cases hsf
    cases hsg
    exact h.detached h h.preprocess
  | detach =>
    cases hsf
    cases hsg
    exact h.detached h.postprocess h
  | enqueue i m =>
    cases hsf
    cases hsg
    exact h.set_input (by simpa using h.linked i) fun hi => by rw [h.queue i hi]
  | drain i =>
    cases hsf
    cases hsg
    exact h.set_output (by simpa using h.listened i)
  | tick =>
    rcases tick_cases hf hsf with ⟨ha, rfl⟩ | ⟨ha, f₁, rfl, htf, hsumf⟩
    · rcases tick_cases hg hsg with ⟨-, rfl⟩ | ⟨hga, -⟩
      · exact h
      · rw [← h.attached, ha] at hga
        cases hga
    · rcases tick_cases hg hsg with ⟨hga, -⟩ | ⟨-, g₁, rfl, htg, hsumg⟩
      · rw [← h.attached, ha] at hga
        cases hga
      · exact (h.tick htf hsumf htg hsumg).process_outputs
  | set_rate rate =>
    cases hsf
    cases hsg
    exact ⟨h.nchannels, rfl, h.bytespertick, h.purgeoffset, h.attached, h.gain, h.active,
      h.linked, h.listened, h.unread, h.queue, h.input⟩
  | set_nchannels nchannels =>
    cases hsf
    cases hsg
    exact ⟨rfl, h.rate, h.bytespertick, h.purgeoffset, h.attached, h.gain, h.active,
      h.linked, h.listened, h.unread, h.queue, h.input⟩
  | set_input_gain pin gain =>
    cases hsf
    cases hsg
    exact h.set_on_pin (fun _ => rfl) (fun _ => rfl) (fun _ _ _ => rfl) fun _ _ hcd => hcd
  | set_active pin active =>
    cases hsf
    cases hsg
    exact h.set_on_pin (fun _ => rfl) (fun _ => rfl) (fun _ _ hcd => hcd) fun _ _ _ => rfl
  | set_conference_mode mode =>
    cases hsf
    cases hsg
    exact ⟨h.nchannels, h.rate, h.bytespertick, h.purgeoffset, h.attached, h.gain, h.active,
      h.linked, h.listened, h.unread, h.queue, h.input⟩

/-! ## The audio of one channel -/

/-- The action sends audio to channel `ch`. -/
def sends (ch : Nat) : Op → Bool
  | .enqueue i _ => i == ch
  | _ => false

theorem sends_alike {ch : Nat} {op : Op} {f' : MSFilter} (hop : sends ch op = true)
    (hs : step fmul f op = .ok f') : Alike (· = ch) f f' := by
  cases op with
  | enqueue i m =>
    have hi : i = ch := by simpa [sends] using hop
    cases hs
    refine ⟨rfl, rfl, rfl, rfl, rfl, fun _ => rfl, fun _ => rfl, fun j => ?_, fun _ => rfl,
      fun _ _ => rfl, fun j hj => ?_, fun _ _ => rfl⟩
    · by_cases hji : j = i
      · simp [set_pin, hji]
      · simp [set_pin, hji]
    · simp [set_pin, hi, hj]
  | _ => cases hop

/-- Two histories that differ in the audio of channel `ch` keep the rest alike. -/
theorem unwinds_audio (fmul : UInt32 → Int → Int) (ch : Nat) :
    Unwinds (step fmul) (sends ch) Sane (Alike (· = ch)) where
  equivalence := alike_equivalence
  keeps := step_sane fmul
  respects _ _ _ _ hop hs := sends_alike hop hs
  consistent _ _ _ _ _ hf hg h _ hsf hsg := Alike.step hf hg h hsf hsg

/-! ## What is heard after a step -/

/-- The messages that a step adds to output `i`. -/
def added (f f' : MSFilter) (i : Nat) : List mblk_t :=
  ((f'.outputs i).getD []).drop ((f.outputs i).getD []).length

/-- What a step lets be heard: the contribution of channel `ch`, and what each output gets. -/
def heard (ch : Nat) (f : MSFilter) (_ : Op) (f' : MSFilter) : List Int × List (List mblk_t) :=
  ((f'.data.channels ch).input, (List.range MIXER_MAX_CHANNELS).map (added f f'))

theorem step_ok (fmul : UInt32 → Int → Int) (h : Sane f) (op : Op) :
    ∃ f', step fmul f op = .ok f' := by
  cases op with
  | tick =>
    obtain ⟨g, hok, -⟩ := process_summed fmul h
    by_cases ha : f.attached = true
    · exact ⟨process_outputs g, by simp only [step, ha, if_true, hok]⟩
    · exact ⟨f, by simp only [step, ha, if_false, Bool.false_eq_true]⟩
  | _ => exact ⟨_, rfl⟩

theorem added_self (f : MSFilter) (i : Nat) : added f f i = [] := by
  simp [added]

theorem added_set_output {i j : Nat} {q : Option MSQueue}
    (h : q.getD [] = [] ∨ q.getD [] = (f.outputs j).getD []) :
    added f { f with outputs := set_pin f.outputs j q } i = [] := by
  unfold added set_pin
  by_cases hij : i = j
  · rcases h with h | h
    · simp [hij, h]
    · simp [hij, h]
  · simp [hij]

/-- Only a tick adds messages. -/
theorem added_quiet {op : Op} {f' : MSFilter} (hs : step fmul f op = .ok f') (hop : op ≠ .tick)
    (i : Nat) : added f f' i = [] := by
  cases op with
  | tick => exact absurd rfl hop
  | link_output j =>
    cases hs
    split
    · exact added_self f i
    · exact added_set_output (Or.inr rfl)
  | unlink_output j =>
    cases hs
    split
    · exact added_self f i
    · exact added_set_output (Or.inl rfl)
  | drain j =>
    cases hs
    refine added_set_output (Or.inl ?_)
    cases f.outputs j <;> rfl
  | _ =>
    cases hs
    first
      | exact added_self f i
      | split <;> exact added_self f i

theorem added_tick {f' : MSFilter} (ht : Turns f MIXER_MAX_CHANNELS f') {i : Nat}
    (hi : i < MIXER_MAX_CHANNELS) : added f (process_outputs f') i =
      if (f.outputs i).isSome = true then [channel_process_out (f'.data.channels i) f'.data.sum]
      else [] := by
  unfold added process_outputs
  cases hq : f.outputs i with
  | none => simp [hi, ht.outputs, hq]
  | some q => simp [hi, ht.outputs, hq, ms_queue_put]

/-- A step of two states that are alike in all channels is heard the same. -/
theorem Alike.heard {ch : Nat} {op : Op} {f' g' : MSFilter} (hf : Sane f) (hg : Sane g)
    (h : Alike (fun _ => False) f g) (hsf : audio_mixer.step fmul f op = .ok f')
    (hsg : audio_mixer.step fmul g op = .ok g') :
    audio_mixer.heard ch f op f' = audio_mixer.heard ch g op g' := by
  have h' := h.step hf hg hsf hsg
  have hadded : ∀ i < MIXER_MAX_CHANNELS, added f f' i = added g g' i := by
    intro i hi
    by_cases hop : op = .tick
    · subst hop
      rcases tick_cases hf hsf with ⟨ha, rfl⟩ | ⟨ha, f₁, rfl, htf, hsumf⟩
      · rcases tick_cases hg hsg with ⟨-, rfl⟩ | ⟨hga, -⟩
        · rw [added_self, added_self]
        · rw [← h.attached, ha] at hga
          cases hga
      · rcases tick_cases hg hsg with ⟨hga, -⟩ | ⟨-, g₁, rfl, htg, hsumg⟩
        · rw [← h.attached, ha] at hga
          cases hga
        · have hchan := h.tick htf hsumf htg hsumg
          rw [added_tick htf hi, added_tick htg hi, h.listened i, hsumf.sum, hsumg.sum,
            h.total (fun _ => not_false)]
          unfold channel_process_out
          rw [hchan.active i, hchan.input i not_false]
    · rw [added_quiet hsf hop, added_quiet hsg hop]
  unfold audio_mixer.heard
  rw [h'.input ch not_false]
  congr 1
  exact List.map_congr_left fun i hi => hadded i (List.mem_range.mp hi)

/-- From two such states, the same actions are heard the same. -/
theorem Alike.observed {ch : Nat} (hf : Sane f) (hg : Sane g) (h : Alike (fun _ => False) f g)
    (ops : List Op) : observed (audio_mixer.step fmul) (audio_mixer.heard ch) f ops =
      observed (audio_mixer.step fmul) (audio_mixer.heard ch) g ops := by
  refine observed_eq (R := fun f g => Sane f ∧ Sane g ∧ Alike (fun _ => False) f g) ?_
    ⟨hf, hg, h⟩ ops
  rintro f g op ⟨hf, hg, h⟩
  obtain ⟨f', hsf⟩ := step_ok fmul hf op
  obtain ⟨g', hsg⟩ := step_ok fmul hg op
  exact ⟨f', g', hsf, hsg, ⟨step_sane fmul f op f' hf hsf, step_sane fmul g op g' hg hsg,
    h.step hf hg hsf hsg⟩, h.heard hf hg hsf hsg⟩

end zonekey_mcu.audio_mixer
