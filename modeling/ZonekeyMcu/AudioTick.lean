-- The laws of one tick of the audio mixer: each output is the clamped sum of the
-- other channels, the sum stays in 32 bits, and a short channel loses nothing. The
-- preview pin is the mix of all, until a channel of its own number speaks.
import ZonekeyMcu.Lib.Runs
import ZonekeyMcu.AudioMixer
import Mathlib.Algebra.BigOperators.Group.Finset.Basic
import Mathlib.Algebra.Order.BigOperators.Group.Finset
import Mathlib.Data.List.GetD
import Mathlib.Tactic.Ring

open runs zonekey_mcu.bufferizer

namespace zonekey_mcu.audio_mixer

/-! ## Samples -/

def Int16 (s : Int) : Prop := -32768 ≤ s ∧ s ≤ 32767

theorem int16_range (lo hi : UInt8) : Int16 (int16 lo hi) := by
  have hlo : lo.toNat < 256 := lo.toNat_lt
  have hhi : hi.toNat < 256 := hi.toNat_lt
  unfold Int16 int16
  by_cases h : (lo.toNat : Int) + 256 * hi.toNat < 32768
  · rw [if_pos h]
    omega
  · rw [if_neg h]
    omega

theorem words_range {bs : Bytes} : ∀ s ∈ words bs, Int16 s := by
  fun_induction words bs with
  | case1 lo hi rest ih =>
    intro s hs
    rcases List.mem_cons.mp hs with hs | hs
    · rw [hs]
      exact int16_range lo hi
    · exact ih s hs
  | case2 bs h => simp

theorem words_length (bs : Bytes) : (words bs).length = bs.length / 2 := by
  fun_induction words bs with
  | case1 lo hi rest ih =>
    simp only [List.length_cons, ih]
    omega
  | case2 bs h =>
    match bs, h with
    | [], _ => rfl
    | [_], _ => simp
    | _ :: _ :: _, h => exact absurd rfl (h _ _ _)

theorem words_word_bytes {s : Int} (h : Int16 s) (rest : Bytes) :
    words (word_bytes s ++ rest) = s :: words rest := by
  obtain ⟨h0, h1⟩ := h
  have hword : int16 (UInt8.ofNat ((s % 65536).toNat % 256))
      (UInt8.ofNat ((s % 65536).toNat / 256)) = s := by
    unfold int16
    simp only [UInt8.toNat_ofNat']
    split <;> omega
  simp only [word_bytes, List.cons_append, List.nil_append, words, hword]

/-- The samples of an output message are the values that went in. -/
theorem words_bytes_of_words {xs : List Int} (h : ∀ s ∈ xs, Int16 s) :
    words (bytes_of_words xs) = xs := by
  unfold bytes_of_words
  induction xs with
  | nil => rfl
  | cons s xs ih =>
    rw [List.flatMap_cons, words_word_bytes (h s List.mem_cons_self),
      ih fun t ht => h t (List.mem_cons_of_mem s ht)]

/-- The nearest value from -32767 to 32767. -/
def clamp (s : Int) : Int := max (-32767) (min 32767 s)

theorem saturate_clamp (s : Int) : saturate s = clamp s := by
  unfold saturate clamp
  split
  · omega
  · split <;> omega

theorem clamp_range (s : Int) : Int16 (clamp s) := by
  unfold clamp Int16
  omega

def Int32 (s : Int) : Prop := -2147483648 ≤ s ∧ s ≤ 2147483647

theorem wrap32_id {s : Int} (h : Int32 s) : wrap32 s = s := by
  obtain ⟨h0, h1⟩ := h
  unfold wrap32
  omega

/-! ## What each channel gives to the tick -/

/-- The bytes that wait for channel `i`, in its buffer and in its queue. -/
def held (f : MSFilter) (i : Nat) : Bytes :=
  queued (f.data.channels i).bufferizer.q ++ queued ((f.inputs i).getD [])

/-- Channel `i` is linked and has a full tick. -/
def Full (f : MSFilter) (i : Nat) : Prop :=
  (f.inputs i).isSome = true ∧ f.data.nwords * 2 ≤ (held f i).length

instance (f : MSFilter) (i : Nat) : Decidable (Full f i) := by
  unfold Full
  infer_instance

/-- The samples of channel `i` in this tick: silence when it has too few. -/
def samples (f : MSFilter) (i : Nat) : List Int :=
  if Full f i then words ((held f i).take (f.data.nwords * 2))
  else List.replicate f.data.nwords 0

def sample (f : MSFilter) (i n : Nat) : Int := (samples f i).getD n 0

/-- Channel `i` is active, and has a full tick. -/
def Speaks (f : MSFilter) (i : Nat) : Prop := (f.data.channels i).active = true ∧ Full f i

instance (f : MSFilter) (i : Nat) : Decidable (Speaks f i) := by
  unfold Speaks
  infer_instance

/-- Sample `n` of the sum of the channels that speak, among the first `k`. -/
def mix (f : MSFilter) (k n : Nat) : Int :=
  ∑ j ∈ (Finset.range k).filter (Speaks f), sample f j n

/-- The same sum over all channels, without channel `i`. -/
def mix_without (f : MSFilter) (i n : Nat) : Int :=
  ∑ j ∈ (Finset.range MIXER_MAX_CHANNELS).filter (fun j => Speaks f j ∧ j ≠ i), sample f j n

/-- The list of the values of `g` for each sample of a tick. -/
def tick_of (nwords : Nat) (g : Nat → Int) : List Int := (List.range nwords).map g

theorem samples_length (f : MSFilter) (i : Nat) : (samples f i).length = f.data.nwords := by
  unfold samples
  split
  · rename_i h
    rw [words_length, List.length_take]
    have := h.2
    omega
  · exact List.length_replicate

theorem samples_eq (f : MSFilter) (i : Nat) :
    samples f i = tick_of f.data.nwords (sample f i) := by
  unfold tick_of sample
  apply List.ext_getElem
  · simp [samples_length]
  · intro n hn _
    rw [List.getElem_map, List.getElem_range, List.getD_eq_getElem _ _ hn]

theorem sample_range (f : MSFilter) (i n : Nat) : Int16 (sample f i n) := by
  unfold sample
  by_cases hn : n < (samples f i).length
  · rw [List.getD_eq_getElem _ _ hn]
    have hmem := List.getElem_mem hn
    revert hmem
    generalize (samples f i)[n] = s
    unfold samples
    split
    · exact words_range s
    · intro hs
      rw [(List.mem_replicate.mp hs).2]
      unfold Int16
      omega
  · rw [List.getD_eq_default _ _ (by omega)]
    unfold Int16
    omega

theorem sample_silent {f : MSFilter} {i : Nat} (h : ¬ Full f i) (n : Nat) : sample f i n = 0 := by
  unfold sample samples
  rw [if_neg h]
  by_cases hn : n < f.data.nwords
  · exact List.getD_replicate 0 hn
  · exact List.getD_eq_default _ _ (by simpa using hn)

theorem mix_succ (f : MSFilter) (k n : Nat) :
    mix f (k + 1) n = mix f k n + if (f.data.channels k).active then sample f k n else 0 := by
  unfold mix
  rw [Finset.range_add_one, Finset.filter_insert]
  by_cases hfull : Full f k
  · simp only [Speaks, hfull, and_true]
    split
    · rw [Finset.sum_insert (by simp), add_comm]
    · rw [add_zero]
  · have hnot : ¬ Speaks f k := fun h => hfull h.2
    simp [hnot, sample_silent hfull]

theorem mix_bound (f : MSFilter) (k n : Nat) :
    -(32768 * k : Int) ≤ mix f k n ∧ mix f k n ≤ 32768 * k := by
  induction k with
  | zero => simp [mix]
  | succ k ih =>
    rw [mix_succ]
    have := sample_range f k n
    unfold Int16 at this
    split <;> push_cast <;> omega

/-- No sum over channels leaves 32 bits, since there are only 20 of them. -/
theorem mix_range (f : MSFilter) {k : Nat} (n : Nat) (hk : k ≤ MIXER_MAX_CHANNELS) :
    Int32 (mix f k n) := by
  have := mix_bound f k n
  unfold Int32 MIXER_MAX_CHANNELS at *
  omega

/-- What is left of the sum when an active channel takes its own samples out. -/
theorem mix_others (f : MSFilter) {i : Nat} (n : Nat) (hi : i < MIXER_MAX_CHANNELS)
    (hactive : (f.data.channels i).active = true) :
    mix f MIXER_MAX_CHANNELS n - sample f i n = mix_without f i n := by
  unfold mix mix_without
  by_cases hfull : Full f i
  · have hmem : i ∈ (Finset.range MIXER_MAX_CHANNELS).filter (Speaks f) := by
      simp [hi, Speaks, hactive, hfull]
    rw [← Finset.add_sum_erase _ _ hmem, add_sub_cancel_left]
    congr 1
    ext j
    simp only [Finset.mem_erase, Finset.mem_filter]
    tauto
  · have hnot : ¬ Speaks f i := fun h => hfull h.2
    rw [sample_silent hfull, sub_zero]
    congr 1
    ext j
    simp only [Finset.mem_filter]
    constructor
    · rintro ⟨hj, hs⟩
      exact ⟨hj, hs, fun hji => hnot (hji ▸ hs)⟩
    · rintro ⟨hj, hs, _⟩
      exact ⟨hj, hs⟩

/-- A channel that does not speak is not in the sum. -/
theorem mix_without_silent (f : MSFilter) {i : Nat} (n : Nat) (h : ¬ Speaks f i) :
    mix_without f i n = mix f MIXER_MAX_CHANNELS n := by
  unfold mix mix_without
  congr 1
  ext j
  simp only [Finset.mem_filter]
  constructor
  · rintro ⟨hj, hs, _⟩
    exact ⟨hj, hs⟩
  · rintro ⟨hj, hs⟩
    exact ⟨hj, hs, fun hji => h (hji ▸ hs)⟩

/-! ## One input -/

theorem zip_ticks (op : Int → Int → Int) (nwords : Nat) (g h : Nat → Int) :
    List.zipWith op (tick_of nwords g) (tick_of nwords h) =
      tick_of nwords fun n => op (g n) (h n) := by
  unfold tick_of
  rw [List.zipWith_map, List.zipWith_self]

theorem tick_congr {nwords : Nat} {g h : Nat → Int} (hgh : ∀ n, g n = h n) :
    tick_of nwords g = tick_of nwords h := by
  rw [funext hgh]

/-- The buffer counts its bytes right. -/
def Counted (obj : MSBufferizer) : Prop := Holds obj (queued obj.q)

theorem counted_of_holds {obj : MSBufferizer} {xs : Bytes} (h : Holds obj xs) : Counted obj := by
  unfold Counted
  rw [h.queue]
  exact h

/-- What a channel does with the `n` samples of a tick, when it holds the bytes
`xs` with those of its queue. -/
structure TookIn (fmul : UInt32 → Int → Int) (chan : Channel) (xs : Bytes) (sum : List Int)
    (n : Nat) (chan' : Channel) (sum' : List Int) : Prop where
  active : chan'.active = chan.active
  gain : chan'.gain = chan.gain
  buffer : Holds chan'.bufferizer (if n * 2 ≤ xs.length then xs.drop (n * 2) else xs)
  input : chan.gain = GAIN_ONE → chan'.input =
    if n * 2 ≤ xs.length then words (xs.take (n * 2)) else List.replicate n 0
  sum : chan.gain = GAIN_ONE → sum' =
    if chan.active = true ∧ n ≠ 0 ∧ n * 2 ≤ xs.length then accumulate sum chan'.input else sum

/-- The same, with any gain. -/
structure Took (fmul : UInt32 → Int → Int) (chan : Channel) (xs : Bytes) (sum : List Int)
    (n : Nat) (chan' : Channel) (sum' : List Int) : Prop where
  active : chan'.active = chan.active
  gain : chan'.gain = chan.gain
  buffer : Holds chan'.bufferizer (if n * 2 ≤ xs.length then xs.drop (n * 2) else xs)
  input : chan'.input =
    if n * 2 ≤ xs.length then
      if chan.active = true ∧ chan.gain ≠ GAIN_ONE then
        apply_gain fmul chan.gain (words (xs.take (n * 2)))
      else words (xs.take (n * 2))
    else List.replicate n 0
  sum : sum' =
    if chan.active = true ∧ n ≠ 0 ∧ n * 2 ≤ xs.length then accumulate sum chan'.input else sum

theorem channel_process_in_took (fmul : UInt32 → Int → Int) {chan : Channel} (q : MSQueue)
    (sum : List Int) (n : Nat) (h : Counted chan.bufferizer) :
    ∃ r chan' sum', channel_process_in fmul chan q sum n = .ok (r, chan', sum') ∧
      Took fmul chan (queued chan.bufferizer.q ++ queued q) sum n chan' sum' := by
  have hput := put_from_queue_holds h q
  generalize queued chan.bufferizer.q ++ queued q = xs at hput ⊢
  unfold channel_process_in
  by_cases hfull : n * 2 ≤ xs.length
  · obtain ⟨obj, hread, hobj⟩ := read_full hput hfull
    have hbuffer : Holds obj (if n * 2 ≤ xs.length then xs.drop (n * 2) else xs) := by
      rwa [if_pos hfull]
    rw [hread]
    by_cases hn : n = 0
    · subst hn
      refine ⟨_, _, _, rfl, rfl, rfl, hbuffer, ?_, ?_⟩
      · simp [words, apply_gain]
      · simp
    · have hn2 : n * 2 ≠ 0 := by omega
      simp only [if_pos hn2]
      by_cases hactive : chan.active = true
      · by_cases hgain : chan.gain = GAIN_ONE
        · simp only [hactive, hgain, if_true, ne_eq, not_true_eq_false, if_false]
          refine ⟨_, _, _, rfl, hactive.symm, hgain.symm, hbuffer, ?_, ?_⟩
          · simp [hfull, hgain]
          · simp [hactive, hn, hfull]
        · simp only [hactive, hgain, if_true, ne_eq, not_false_eq_true]
          refine ⟨_, _, _, rfl, hactive.symm, rfl, hbuffer, ?_, ?_⟩
          · simp [hfull, hgain, hactive]
          · simp [hactive, hn, hfull]
      · simp only [hactive, if_false, Bool.false_eq_true]
        refine ⟨_, _, _, rfl, ?_, rfl, hbuffer, ?_, ?_⟩
        · simpa using hactive
        · simp [hfull, hactive]
        · simp [hactive]
  · rw [read_short hput (by omega)]
    refine ⟨_, _, _, rfl, rfl, rfl, ?_, ?_, ?_⟩
    · simpa only [if_neg hfull] using hput
    · simp only [if_neg hfull]
    · simp [hfull]

/-- At full gain, the samples go into the sum as they are. -/
theorem Took.at_full_gain {fmul : UInt32 → Int → Int} {chan chan' : Channel} {xs : Bytes}
    {sum sum' : List Int} {n : Nat} (h : Took fmul chan xs sum n chan' sum') :
    TookIn fmul chan xs sum n chan' sum' where
  active := h.active
  gain := h.gain
  buffer := h.buffer
  input hone := by
    rw [h.input]
    simp only [hone, ne_eq, not_true_eq_false, and_false, if_false]
  sum _ := h.sum

/-! ## The first loop -/

/-- The bytes of channel `i` that are left after the tick: those that were not
read, or none when they are too many. -/
def kept (f : MSFilter) (i : Nat) : Bytes :=
  let xs := if Full f i then (held f i).drop (f.data.nwords * 2) else held f i
  if f.data.purgeoffset < xs.length then [] else xs

theorem kept_le (f : MSFilter) (i : Nat) : (kept f i).length ≤ f.data.purgeoffset := by
  unfold kept
  generalize (if Full f i then (held f i).drop (f.data.nwords * 2) else held f i) = xs
  by_cases h : f.data.purgeoffset < xs.length
  · rw [if_pos h]
    exact Nat.zero_le _
  · rw [if_neg h]
    omega

/-- The gains of the first `k` channels are 1.0. -/
def Unity (f : MSFilter) (k : Nat) : Prop := ∀ i < k, (f.data.channels i).gain = GAIN_ONE

/-- The state `g` after the turns of the first `k` inputs of a tick that started
in the state `f`. -/
structure Turns (f : MSFilter) (k : Nat) (g : MSFilter) : Prop where
  sum : Unity f k → g.data.sum = tick_of f.data.nwords (mix f k)
  turn : ∀ i < k, (f.inputs i).isSome = true → g.inputs i = some [] ∧
    Holds (g.data.channels i).bufferizer (kept f i) ∧
    (Unity f k → (g.data.channels i).input = samples f i)
  same : ∀ i, (k ≤ i ∨ f.inputs i = none) →
    g.inputs i = f.inputs i ∧ g.data.channels i = f.data.channels i
  active : ∀ i, (g.data.channels i).active = (f.data.channels i).active
  gain : ∀ i, (g.data.channels i).gain = (f.data.channels i).gain
  bytespertick : g.data.bytespertick = f.data.bytespertick
  purgeoffset : g.data.purgeoffset = f.data.purgeoffset
  mode : g.data.conf_mode = f.data.conf_mode
  outputs : g.outputs = f.outputs
  attached : g.attached = f.attached

theorem purge_holds {chan : Channel} {xs : Bytes} (n : Nat) (h : Holds chan.bufferizer xs) :
    Holds (purge n chan).bufferizer (if n < xs.length then [] else xs) := by
  unfold purge ms_bufferizer_get_avail
  rw [h.count]
  split
  · exact flush_holds chan.bufferizer
  · exact h

@[simp] theorem purge_input (n : Nat) (chan : Channel) : (purge n chan).input = chan.input := by
  unfold purge
  split <;> rfl

@[simp] theorem purge_active (n : Nat) (chan : Channel) :
    (purge n chan).active = chan.active := by
  unfold purge
  split <;> rfl

@[simp] theorem purge_gain (n : Nat) (chan : Channel) : (purge n chan).gain = chan.gain := by
  unfold purge
  split <;> rfl

theorem turns_zero (f : MSFilter) : Turns f 0 f.clear_sum where
  sum _ := by
    have hzero : mix f 0 = fun _ => 0 := funext fun n => by simp [mix]
    rw [hzero]
    simp [MSFilter.clear_sum, tick_of]
  turn i hi := absurd hi (Nat.not_lt_zero i)
  same i _ := ⟨rfl, rfl⟩
  active _ := rfl
  gain _ := rfl
  bytespertick := rfl
  purgeoffset := rfl
  mode := rfl
  outputs := rfl
  attached := rfl

theorem unlinked_not_full {f : MSFilter} {i : Nat} (h : f.inputs i = none) : ¬ Full f i := by
  intro hfull
  have hlinked := hfull.1
  rw [h] at hlinked
  cases hlinked

theorem linked_full {f : MSFilter} {i : Nat} {q : MSQueue} (h : f.inputs i = some q) :
    Full f i ↔ f.data.nwords * 2 ≤ (held f i).length := by
  unfold Full
  rw [h]
  simp

/-- The turn of an input that is not linked changes nothing. -/
theorem Turns.skip {f g : MSFilter} {k : Nat} (h : Turns f k g) (hq : f.inputs k = none) :
    Turns f (k + 1) g := by
  refine ⟨?_, ?_, ?_, h.active, h.gain, h.bytespertick, h.purgeoffset, h.mode, h.outputs,
    h.attached⟩
  · intro hu
    rw [h.sum fun i hi => hu i (Nat.lt_succ_of_lt hi)]
    apply tick_congr
    intro n
    rw [mix_succ, sample_silent (unlinked_not_full hq)]
    simp
  · intro i hi hlinked
    have hne : i ≠ k := fun hik => by
      rw [hik, hq] at hlinked
      cases hlinked
    obtain ⟨h1, h2, h3⟩ := h.turn i (by omega) hlinked
    exact ⟨h1, h2, fun hu => h3 fun j hj => hu j (Nat.lt_succ_of_lt hj)⟩
  · intro i hi
    apply h.same
    rcases hi with hi | hi
    · exact Or.inl (by omega)
    · exact Or.inr hi

section

variable {fmul : UInt32 → Int → Int} {f g : MSFilter} {k : Nat} {q : MSQueue} {chan : Channel}
  {sum : List Int}

/-- At full gain, the contribution of the turn is the samples of the tick. -/
theorem took_samples (hq : f.inputs k = some q) (hone : (f.data.channels k).gain = GAIN_ONE)
    (htook : TookIn fmul (f.data.channels k) (held f k) g.data.sum f.data.nwords chan sum) :
    chan.input = samples f k := by
  rw [htook.input hone]
  simp only [samples, linked_full hq]

/-- The sum after the turn has the samples of an active channel in it. -/
theorem Turns.took_sum (h : Turns f k g) (hk : k < MIXER_MAX_CHANNELS) (hq : f.inputs k = some q)
    (htook : TookIn fmul (f.data.channels k) (held f k) g.data.sum f.data.nwords chan sum)
    (hu : Unity f (k + 1)) : sum = tick_of f.data.nwords (mix f (k + 1)) := by
  have hone := hu k (Nat.lt_succ_self k)
  have hsum := h.sum fun i hi => hu i (Nat.lt_succ_of_lt hi)
  rw [htook.sum hone]
  split
  · rename_i hall
    rw [took_samples hq hone htook, hsum, samples_eq]
    unfold accumulate
    rw [zip_ticks]
    apply tick_congr
    intro n
    have hrange := mix_range f n (Nat.succ_le_of_lt hk)
    rw [mix_succ, if_pos hall.1] at hrange
    rw [mix_succ, if_pos hall.1, wrap32_id hrange]
  · rename_i hnot
    rw [hsum]
    -- Nothing was added, and what the channel gives is 0 or has no sample.
    by_cases hn : f.data.nwords = 0
    · rw [hn]
      rfl
    · apply tick_congr
      intro n
      rw [mix_succ]
      by_cases hactive : (f.data.channels k).active = true
      · rw [if_pos hactive,
          sample_silent fun hf => hnot ⟨hactive, hn, (linked_full hq).mp hf⟩]
        omega
      · simp [hactive]

/-- The turn of a linked input. -/
theorem Turns.take (h : Turns f k g) (hk : k < MIXER_MAX_CHANNELS) (hq : f.inputs k = some q)
    (htook : TookIn fmul (f.data.channels k) (held f k) g.data.sum f.data.nwords chan sum) :
    Turns f (k + 1) { g with
      data := { g.data.set_channel k (purge g.data.purgeoffset chan) with sum }
      inputs := fun j => if j = k then some [] else g.inputs j } := by
  refine ⟨h.took_sum hk hq htook, ?_, ?_, ?_, ?_, h.bytespertick, h.purgeoffset, h.mode,
    h.outputs, h.attached⟩
  · intro i hi hlinked
    by_cases hik : i = k
    · subst hik
      simp only [MixerState.set_channel, if_true, purge_input]
      refine ⟨trivial, ?_, fun hu => took_samples hq (hu i (Nat.lt_succ_self i)) htook⟩
      have hkeeps := purge_holds g.data.purgeoffset htook.buffer
      rw [h.purgeoffset] at hkeeps ⊢
      simpa only [kept, linked_full hq] using hkeeps
    · obtain ⟨h1, h2, h3⟩ := h.turn i (by omega) hlinked
      simp only [MixerState.set_channel, if_neg hik]
      exact ⟨h1, h2, fun hu => h3 fun j hj => hu j (Nat.lt_succ_of_lt hj)⟩
  · intro i hi
    have hik : i ≠ k := fun hik => by
      rcases hi with hi | hi
      · omega
      · rw [hik, hq] at hi
        cases hi
    simp only [MixerState.set_channel, if_neg hik]
    apply h.same
    rcases hi with hi | hi
    · exact Or.inl (by omega)
    · exact Or.inr hi
  · intro i
    by_cases hik : i = k
    · simp [MixerState.set_channel, hik, htook.active]
    · simp [MixerState.set_channel, hik, h.active]
  · intro i
    by_cases hik : i = k
    · simp [MixerState.set_channel, hik, htook.gain]
    · simp [MixerState.set_channel, hik, h.gain]

end

/-- One turn takes the input of one channel into the sum. -/
theorem turns_succ (fmul : UInt32 → Int → Int) {f g : MSFilter} {k : Nat} (h : Turns f k g)
    (hk : k < MIXER_MAX_CHANNELS) (hc : Counted (f.data.channels k).bufferizer) :
    ∃ g', process_input fmul g k = .ok g' ∧ Turns f (k + 1) g' := by
  obtain ⟨hin, hchan⟩ := h.same k (Or.inl (Nat.le_refl k))
  have hwords : g.data.nwords = f.data.nwords := by
    unfold MixerState.nwords
    rw [h.bytespertick]
  unfold process_input
  rw [hin]
  cases hq : f.inputs k with
  | none => exact ⟨g, rfl, h.skip hq⟩
  | some q =>
    obtain ⟨r, chan, sum, hok, htook⟩ :=
      channel_process_in_took fmul q g.data.sum f.data.nwords hc
    have hheld : queued (f.data.channels k).bufferizer.q ++ queued q = held f k := by
      unfold held
      rw [hq]
      rfl
    rw [hheld] at htook
    simp only [hchan, hwords, hok]
    exact ⟨_, rfl, h.take hk hq htook.at_full_gain⟩

/-- The first loop never faults. After `k` turns, the first `k` inputs are in
the sum. -/
theorem process_inputs_turns (fmul : UInt32 → Int → Int) {f : MSFilter} {k : Nat}
    (hk : k ≤ MIXER_MAX_CHANNELS) (hc : ∀ i, Counted (f.data.channels i).bufferizer) :
    ∃ g, process_inputs fmul f.clear_sum k = .ok g ∧ Turns f k g := by
  induction k with
  | zero => exact ⟨_, rfl, turns_zero f⟩
  | succ k ih =>
    obtain ⟨g, hg, hturns⟩ := ih (by omega)
    obtain ⟨g', hg', hturns'⟩ := turns_succ fmul hturns (by omega) (hc k)
    refine ⟨g', ?_, hturns'⟩
    simp only [process_inputs, hg, hg']

/-! ## Any run -/

/-- What holds between any two calls. The last two laws are about the time from
`preprocess` on, in which the links do not change. -/
structure Sane (f : MSFilter) : Prop where
  counted : ∀ i, Counted (f.data.channels i).bufferizer
  mode : f.data.conf_mode = 1
  latency : f.attached = true → f.data.nwords * 2 ≤ f.data.purgeoffset
  silent : f.attached = true → ∀ i, f.inputs i = none →
    (f.data.channels i).input = List.replicate f.data.nwords 0

theorem new_sane : Sane MSFilter.new where
  counted _ := init_holds
  mode := rfl
  latency h := by cases h
  silent h := by cases h

theorem preprocess_latency (s : MixerState) :
    (mixer_preprocess s).nwords * 2 ≤ (mixer_preprocess s).purgeoffset := by
  simp only [mixer_preprocess, MixerState.nwords, TICKER_INTERVAL]
  generalize 2 * s.nchannels * s.rate = bytes
  omega

/-- A method on a pin leaves the buffers and the samples of all channels. -/
theorem set_on_pin_sane {f : MSFilter} (h : Sane f) (pin : Int) {set : Channel → Channel}
    (hb : ∀ chan, (set chan).bufferizer = chan.bufferizer)
    (hin : ∀ chan, (set chan).input = chan.input) :
    Sane { f with data := (set_on_pin f.data pin set).2 } := by
  unfold set_on_pin
  split
  · exact h
  · refine ⟨?_, h.mode, h.latency, ?_⟩
    · intro i
      simp only [MixerState.set_channel]
      split
      · rename_i hi
        rw [hb, ← hi]
        exact h.counted i
      · exact h.counted i
    · intro ha i hi
      simp only [MixerState.set_channel]
      split
      · rename_i hpin
        rw [hin, ← hpin]
        exact h.silent ha i hi
      · exact h.silent ha i hi

theorem turns_sane {f g : MSFilter} (h : Sane f) (ht : Turns f MIXER_MAX_CHANNELS g) :
    Sane (process_outputs g) := by
  have hin : ∀ i, g.inputs i = none → f.inputs i = none := by
    intro i hi
    cases hf : f.inputs i with
    | none => rfl
    | some q =>
      by_cases hlt : i < MIXER_MAX_CHANNELS
      · rw [(ht.turn i hlt (by rw [hf]; rfl)).1] at hi
        cases hi
      · rw [(ht.same i (Or.inl (by omega))).1, hf] at hi
        cases hi
  refine ⟨?_, ht.mode.trans h.mode, ?_, ?_⟩
  · intro i
    change Counted (g.data.channels i).bufferizer
    cases hf : f.inputs i with
    | none =>
      rw [(ht.same i (Or.inr hf)).2]
      exact h.counted i
    | some q =>
      by_cases hlt : i < MIXER_MAX_CHANNELS
      · exact counted_of_holds (ht.turn i hlt (by rw [hf]; rfl)).2.1
      · rw [(ht.same i (Or.inl (by omega))).2]
        exact h.counted i
  · intro ha
    have := h.latency (ht.attached ▸ ha)
    simp only [process_outputs, MixerState.nwords, ht.bytespertick, ht.purgeoffset]
    exact this
  · intro ha i hi
    have hf := hin i hi
    have := h.silent (ht.attached ▸ ha) i hf
    simp only [process_outputs, MixerState.nwords, ht.bytespertick]
    rw [(ht.same i (Or.inr hf)).2]
    exact this

theorem process_turns (fmul : UInt32 → Int → Int) {f : MSFilter} (h : Sane f) :
    ∃ g, mixer_process fmul f = .ok (process_outputs g) ∧ Turns f MIXER_MAX_CHANNELS g := by
  obtain ⟨g, hg, ht⟩ := process_inputs_turns fmul (Nat.le_refl _) h.counted
  refine ⟨g, ?_, ht⟩
  unfold mixer_process
  simp only [hg]
  rw [if_pos (ht.mode.trans h.mode)]

/-- A change of the links while no ticker runs. -/
theorem Sane.relink {f : MSFilter} (h : Sane f) (inputs outputs : Nat → Option MSQueue) :
    Sane (if f.attached then f else { f with inputs, outputs }) := by
  split
  · exact h
  · rename_i hdet
    exact ⟨h.counted, h.mode, fun ha => absurd ha hdet, fun ha => absurd ha hdet⟩

theorem step_sane (fmul : UInt32 → Int → Int) (f : MSFilter) (op : Op) (f' : MSFilter)
    (h : Sane f) (hs : step fmul f op = .ok f') : Sane f' := by
  cases op with
  | link_input i => cases hs; exact h.relink _ f.outputs
  | unlink_input i => cases hs; exact h.relink _ f.outputs
  | link_output i => cases hs; exact h.relink f.inputs _
  | unlink_output i => cases hs; exact h.relink f.inputs _
  | attach =>
    cases hs
    split
    · exact h
    · exact ⟨h.counted, h.mode, fun _ => preprocess_latency f.data, fun _ _ _ => rfl⟩
  | detach =>
    cases hs
    split
    · exact ⟨h.counted, h.mode, fun ha => (by cases ha), fun ha => (by cases ha)⟩
    · exact h
  | enqueue i m =>
    cases hs
    refine ⟨h.counted, h.mode, h.latency, fun ha j hj => h.silent ha j ?_⟩
    simp only [set_pin] at hj
    split at hj
    · rename_i hji
      rw [hji]
      simpa using hj
    · exact hj
  | drain i => cases hs; exact ⟨h.counted, h.mode, h.latency, h.silent⟩
  | tick =>
    simp only [step] at hs
    split at hs
    · obtain ⟨g, hg, ht⟩ := process_turns fmul h
      rw [hg] at hs
      cases hs
      exact turns_sane h ht
    · cases hs
      exact h
  | set_rate rate => cases hs; exact ⟨h.counted, h.mode, h.latency, h.silent⟩
  | set_nchannels nchannels => cases hs; exact ⟨h.counted, h.mode, h.latency, h.silent⟩
  | set_input_gain pin gain =>
    cases hs
    exact set_on_pin_sane h pin (fun _ => rfl) (fun _ => rfl)
  | set_active pin active =>
    cases hs
    exact set_on_pin_sane h pin (fun _ => rfl) (fun _ => rfl)
  | set_conference_mode mode => cases hs; exact ⟨h.counted, rfl, h.latency, h.silent⟩

/-! ## The laws -/

/-- Output `i` got one message, with the samples `g`. -/
def Wrote (f f' : MSFilter) (i : Nat) (g : Nat → Int) : Prop :=
  ∀ q, f.outputs i = some q →
    ∃ m, f'.outputs i = some (q ++ [m]) ∧ words m.bytes = tick_of f.data.nwords g

/-- What a tick from `f` to `f'` does: the preview pin, like an inactive channel,
gets the mix of all. -/
structure Mixed (fmul : UInt32 → Int → Int) (f f' : MSFilter) : Prop where
  active_out : ∀ i < MIXER_MAX_CHANNELS, i ≠ PREVIEW_PIN → (f.data.channels i).active = true →
    Wrote f f' i fun n => clamp (mix_without f i n)
  inactive_out : ∀ i < MIXER_MAX_CHANNELS, (f.data.channels i).active = false →
    Wrote f f' i fun n => clamp (mix f MIXER_MAX_CHANNELS n)
  preview_out : Wrote f f' PREVIEW_PIN fun n => clamp (mix f MIXER_MAX_CHANNELS n)
  /-- After each input, the accumulator holds the exact sum, inside 32 bits. -/
  no_overflow : ∀ k ≤ MIXER_MAX_CHANNELS, ∃ g, process_inputs fmul f.clear_sum k = .ok g ∧
    g.data.sum = tick_of f.data.nwords (mix f k) ∧ ∀ n, Int32 (mix f k n)
  short : ∀ i < MIXER_MAX_CHANNELS, (f.inputs i).isSome = true →
    (held f i).length < f.data.nwords * 2 →
      (∀ n, sample f i n = 0) ∧ ¬ Speaks f i ∧ held f' i = held f i
  purged : ∀ i < MIXER_MAX_CHANNELS, (f.inputs i).isSome = true →
    (held f' i).length ≤ f'.data.purgeoffset ∧
    ms_bufferizer_get_avail (f'.data.channels i).bufferizer ≤ f'.data.purgeoffset

/-- A sample `own` that is added to `others` does not move the clamped value: it
is silence, or both sums are cut at the same end. -/
def Drowned (others own : Int) : Prop :=
  own = 0 ∨ (32767 ≤ others ∧ 32767 ≤ others + own) ∨
    (others ≤ -32767 ∧ others + own ≤ -32767)

theorem clamp_add_eq_iff {others own : Int} :
    clamp others = clamp (others + own) ↔ Drowned others own := by
  unfold clamp Drowned
  omega

/-- Nobody hears the channel whose number is that of the preview pin: nothing is
linked to the pin, or the channel does not speak, or its samples are drowned by
those of the others. -/
def PreviewAlone (f : MSFilter) : Prop :=
  f.outputs PREVIEW_PIN = none ∨ ¬ Speaks f PREVIEW_PIN ∨
    ∀ n < f.data.nwords, Drowned (mix_without f PREVIEW_PIN n) (sample f PREVIEW_PIN n)

theorem out_words (chan : Channel) (nwords : Nat) (g s : Nat → Int)
    (hinput : chan.active = true → chan.input = tick_of nwords s)
    (hrange : ∀ n, chan.active = true → Int32 (g n - s n)) :
    words (channel_process_out chan (tick_of nwords g)).bytes =
      tick_of nwords fun n => clamp (if chan.active then g n - s n else g n) := by
  have hout : ∀ g' : Nat → Int, words (bytes_of_words (tick_of nwords fun n => clamp (g' n))) =
      tick_of nwords fun n => clamp (g' n) := by
    intro g'
    apply words_bytes_of_words
    intro x hx
    obtain ⟨n, _, rfl⟩ := List.mem_map.mp hx
    exact clamp_range _
  unfold channel_process_out mblk_t.bytes
  simp only [List.flatten_nil, List.append_nil]
  by_cases hactive : chan.active = true
  · simp only [hactive, if_true]
    rw [hinput hactive, zip_ticks, ← hout]
    apply congrArg fun xs => words (bytes_of_words xs)
    apply tick_congr
    intro n
    rw [wrap32_id (hrange n hactive), saturate_clamp]
  · simp only [hactive, if_false, Bool.false_eq_true]
    rw [← hout]
    apply congrArg fun xs => words (bytes_of_words xs)
    unfold tick_of
    rw [List.map_map]
    apply List.map_congr_left
    intro n _
    exact saturate_clamp (g n)

/-- What each output gets, when the loop over the inputs has left `g`. -/
theorem outputs_written {f g : MSFilter} (h : Sane f) (ha : f.attached = true)
    (hu : Unity f MIXER_MAX_CHANNELS) (ht : Turns f MIXER_MAX_CHANNELS g) {i : Nat}
    (hi : i < MIXER_MAX_CHANNELS) :
    Wrote f (process_outputs g) i fun n => clamp
      (if (f.data.channels i).active then mix_without f i n else mix f MIXER_MAX_CHANNELS n) := by
  intro q hq
  have hinput : (g.data.channels i).input = tick_of f.data.nwords (sample f i) := by
    rw [← samples_eq]
    cases hf : f.inputs i with
    | none =>
      rw [(ht.same i (Or.inr hf)).2, h.silent ha i hf]
      simp only [samples, if_neg (unlinked_not_full hf)]
    | some q => exact (ht.turn i hi (by rw [hf]; rfl)).2.2 hu
  refine ⟨channel_process_out (g.data.channels i) g.data.sum, ?_, ?_⟩
  · simp only [process_outputs, if_pos hi, ht.outputs, hq, Option.map_some, ms_queue_put]
  · rw [ht.sum hu, out_words (g.data.channels i) f.data.nwords (mix f MIXER_MAX_CHANNELS)
      (sample f i) (fun _ => hinput)]
    · apply tick_congr
      intro n
      rw [ht.active i]
      by_cases hactive : (f.data.channels i).active = true
      · simp only [hactive, if_true, mix_others f n hi hactive]
      · simp only [hactive, if_false, Bool.false_eq_true]
    · intro n _
      have hmix := mix_bound f MIXER_MAX_CHANNELS n
      have hsample := sample_range f i n
      unfold Int16 at hsample
      unfold Int32 MIXER_MAX_CHANNELS at *
      omega

/-- The bytes that wait for a linked channel after the tick. -/
theorem held_after {f g : MSFilter} (ht : Turns f MIXER_MAX_CHANNELS g) {i : Nat}
    (hi : i < MIXER_MAX_CHANNELS) (hlinked : (f.inputs i).isSome = true) :
    held (process_outputs g) i = kept f i ∧
      ms_bufferizer_get_avail (g.data.channels i).bufferizer = (kept f i).length := by
  obtain ⟨hin, hbuf, _⟩ := ht.turn i hi hlinked
  constructor
  · simp only [held, process_outputs, hin, hbuf.queue]
    simp
  · exact hbuf.count

theorem tick_of_eq_iff {nwords : Nat} {g h : Nat → Int} :
    tick_of nwords g = tick_of nwords h ↔ ∀ n < nwords, g n = h n := by
  unfold tick_of
  rw [List.map_inj_left]
  simp only [List.mem_range]

/-- An output that got the samples `g` got the samples `h` too when these are the
same ones, and only then. -/
theorem Wrote.eq_iff {f f' : MSFilter} {i : Nat} {g h : Nat → Int} (hg : Wrote f f' i g) :
    Wrote f f' i h ↔ f.outputs i = none ∨ ∀ n < f.data.nwords, g n = h n := by
  cases hq : f.outputs i with
  | none =>
    refine ⟨fun _ => Or.inl rfl, fun _ q hq' => ?_⟩
    rw [hq] at hq'
    cases hq'
  | some q =>
    obtain ⟨m, hm, hwords⟩ := hg q hq
    constructor
    · intro hh
      obtain ⟨m', hm', hwords'⟩ := hh q hq
      have hsame : m' = m := by
        rw [hm] at hm'
        simpa using hm'.symm
      rw [hsame, hwords] at hwords'
      exact Or.inr (tick_of_eq_iff.mp hwords')
    · rintro (hnone | hgh) q' hq'
      · cases hnone
      · rw [hq] at hq'
        cases hq'
        exact ⟨m, hm, hwords.trans (tick_of_eq_iff.mpr hgh)⟩

/-- The output loop treats the preview pin as it treats any other: an active
channel of its number is taken out of the mix. -/
theorem preview_whole_iff {f g : MSFilter} (h : Sane f) (ha : f.attached = true)
    (hu : Unity f MIXER_MAX_CHANNELS) (ht : Turns f MIXER_MAX_CHANNELS g) :
    (Wrote f (process_outputs g) PREVIEW_PIN fun n => clamp (mix f MIXER_MAX_CHANNELS n)) ↔
      PreviewAlone f := by
  have hpreview : PREVIEW_PIN < MIXER_MAX_CHANNELS := by decide
  rw [(outputs_written h ha hu ht hpreview).eq_iff]
  unfold PreviewAlone
  by_cases hactive : (f.data.channels PREVIEW_PIN).active = true
  · simp only [hactive, if_true]
    by_cases hs : Speaks f PREVIEW_PIN
    · have hsum : ∀ n, mix f MIXER_MAX_CHANNELS n =
          mix_without f PREVIEW_PIN n + sample f PREVIEW_PIN n := by
        intro n
        have := mix_others f n hpreview hactive
        omega
      simp only [hsum, clamp_add_eq_iff, hs, not_true_eq_false, false_or]
    · simp [mix_without_silent f _ hs, hs]
  · have hs : ¬ Speaks f PREVIEW_PIN := fun hs => hactive hs.1
    simp [hactive, hs]

theorem tick_mixed (fmul : UInt32 → Int → Int) {f : MSFilter} (h : Sane f)
    (ha : f.attached = true) (hu : Unity f MIXER_MAX_CHANNELS) :
    ∃ f', mixer_process fmul f = .ok f' ∧ (Mixed fmul f f' ↔ PreviewAlone f) := by
  obtain ⟨g, hg, ht⟩ := process_turns fmul h
  refine ⟨_, hg, fun hmixed => (preview_whole_iff h ha hu ht).mp hmixed.preview_out,
    fun halone => ⟨?_, ?_, (preview_whole_iff h ha hu ht).mpr halone, ?_, ?_, ?_⟩⟩
  · intro i hi _ hactive
    simpa only [hactive, if_true] using outputs_written h ha hu ht hi
  · intro i hi hactive
    simpa only [hactive, Bool.false_eq_true, if_false] using outputs_written h ha hu ht hi
  · intro k hk
    obtain ⟨gk, hgk, htk⟩ := process_inputs_turns fmul hk h.counted
    exact ⟨gk, hgk, htk.sum fun i hi => hu i (by omega), fun n => mix_range f n hk⟩
  · intro i hi hlinked hshort
    have hnot : ¬ Full f i := fun hfull => by
      have := hfull.2
      omega
    refine ⟨sample_silent hnot, fun hs => hnot hs.2, ?_⟩
    have hlatency := h.latency ha
    rw [(held_after ht hi hlinked).1]
    simp only [kept, if_neg hnot]
    rw [if_neg (by omega)]
  · intro i hi hlinked
    obtain ⟨hheld, havail⟩ := held_after ht hi hlinked
    have hpurge : (process_outputs g).data.purgeoffset = f.data.purgeoffset := ht.purgeoffset
    rw [hheld, hpurge]
    exact ⟨kept_le f i, havail.le.trans (kept_le f i)⟩

/-- Each tick of each run, with all gains at 1.0, gives every linked output the
clamped sum of the other channels that speak, and the preview pin and the inactive
channels the clamped sum of all, as long as the preview channel is not heard. -/
theorem each_output_is_everybody_else_iff (fmul : UInt32 → Int → Int) (ops : List Op)
    {f : MSFilter} (hr : run (step fmul) MSFilter.new ops = .ok f) (ha : f.attached = true)
    (hu : Unity f MIXER_MAX_CHANNELS) :
    ∃ f', mixer_process fmul f = .ok f' ∧ (Mixed fmul f f' ↔ PreviewAlone f) :=
  tick_mixed fmul (run_keeps (step_sane fmul) new_sane hr) ha hu

/-- Two channels at one sample for each tick. Channel 1 has a sample, and
channel 0 only half of one. -/
def two_channels : List Op :=
  [.set_rate 100, .link_input 0, .link_input 1, .link_output 0, .link_output PREVIEW_PIN, .attach,
    .enqueue 0 { data := [7], b_cont := [] }, .enqueue 1 { data := [5, 1], b_cont := [] }]

theorem each_output_is_everybody_else_iff_example :
    ∃ f f', run (step fun _ s => s) MSFilter.new two_channels = .ok f ∧
      (f.outputs 0).isSome = true ∧ (f.outputs PREVIEW_PIN).isSome = true ∧
      f.data.nwords = 1 ∧ mixer_process (fun _ s => s) f = .ok f' ∧ Mixed (fun _ s => s) f f' := by
  obtain ⟨f', hf', hmixed⟩ :=
    each_output_is_everybody_else_iff (fun _ s => s) two_channels rfl rfl (fun _ _ => rfl)
  refine ⟨_, f', rfl, rfl, rfl, rfl, hf', hmixed.mpr (Or.inr (Or.inl ?_))⟩
  rintro ⟨_, hlinked, _⟩
  cases hlinked

/-- Channel 0 and the channel of the preview pin speak at the same time. -/
def preview_channel : List Op :=
  [.set_rate 100, .link_input 0, .link_input PREVIEW_PIN, .link_output PREVIEW_PIN, .attach,
    .enqueue 0 { data := [7, 0], b_cont := [] },
    .enqueue PREVIEW_PIN { data := [5, 0], b_cont := [] }]

/-- The preview pin gets the 7 of channel 0 alone, where the mix of all is 12. -/
theorem the_preview_misses_its_own_channel :
    ∃ f f' q m, run (step fun _ s => s) MSFilter.new preview_channel = .ok f ∧
      f.attached = true ∧ Unity f MIXER_MAX_CHANNELS ∧ f.outputs PREVIEW_PIN = some q ∧
      mixer_process (fun _ s => s) f = .ok f' ∧ f'.outputs PREVIEW_PIN = some (q ++ [m]) ∧
      words m.bytes = [7] ∧ tick_of f.data.nwords (mix f MIXER_MAX_CHANNELS) = [12] ∧
      ¬ Mixed (fun _ s => s) f f' := by
  have hmix : ∀ f, run (step fun _ s => s) MSFilter.new preview_channel = .ok f →
      tick_of f.data.nwords (mix f MIXER_MAX_CHANNELS) = [12] := by
    intro f hf
    cases hf
    decide +kernel
  refine ⟨_, _, [], { data := [7, 0], b_cont := [] }, rfl, rfl, fun _ _ => rfl, rfl, rfl, rfl,
    by decide, hmix _ rfl, ?_⟩
  intro hmixed
  obtain ⟨m, hm, hwords⟩ := hmixed.preview_out [] rfl
  cases hm
  exact absurd (hwords.trans (hmix _ rfl)) (by decide)

end zonekey_mcu.audio_mixer
