-- What each function of the message blocks does to memory in which every block has one owner
-- and every data buffer counts the blocks that look at it.
import ZonekeyMcu.MessageBlocks

open memory raster ref_counts

namespace zonekey_mcu.message_blocks

/-! ## The data blocks -/

/-- Each data block has as many references as `refs` says. A buffer with a `db_freefn` goes back
once, when it has no reference left. -/
structure Datas (b : Blocks) (refs : Nat → Nat) : Prop where
  counts : Counts b.datas refs
  returned : ∀ d, b.returned.count d =
    if d ∈ b.datas.mem.deleted ∧ (b.datas.object d).db_freefn then 1 else 0

section

variable {b b' : Blocks} {refs refs' : Nat → Nat} {d : Nat}

theorem Datas.congr (h : Datas b refs) (heq : ∀ d, refs' d = refs d) : Datas b refs' :=
  ⟨h.counts.congr heq, h.returned⟩

/-- The blocks have no part in it. -/
theorem Datas.frame (h : Datas b refs) (hdatas : b'.datas = b.datas)
    (hreturned : b'.returned = b.returned) (heq : ∀ d, refs' d = refs d) : Datas b' refs' :=
  ⟨by rw [hdatas]; exact h.counts.congr heq, by rw [hdatas, hreturned]; exact h.returned⟩

theorem Datas.not_deleted (h : Datas b refs) : b.datas.mem.next ∉ b.datas.mem.deleted :=
  h.counts.accounts.not_deleted

theorem Datas.make (h : Datas b refs) (x : Dblk) :
    Datas { b with datas := b.datas.make x } fun d =>
      refs d + if d = b.datas.mem.next then 1 else 0 := by
  refine ⟨h.counts.make x, fun d => ?_⟩
  rw [h.returned d]
  by_cases hd : d = b.datas.mem.next
  · subst hd
    simp [Heap.make, Memory.alloc, h.not_deleted]
  · simp [Heap.make, Memory.alloc, put_ne _ _ hd]

theorem Datas.set (h : Datas b refs) {x : Dblk}
    (hfree : x.db_freefn = (b.datas.object d).db_freefn) :
    Datas { b with datas := b.datas.set d x } refs := by
  refine ⟨h.counts.set d x, fun q => ?_⟩
  rw [h.returned q]
  by_cases hq : q = d
  · subst hq
    simp [Heap.set, hfree]
  · simp [Heap.set, put_ne _ _ hq]

theorem Datas.ref (h : Datas b refs) (hd : 0 < refs d) :
    ∃ b', datab_ref b d = .ok b' ∧ b'.mem = b.mem ∧ b'.mblk = b.mblk ∧
      b'.datas.object = b.datas.object ∧ b'.datas.mem = b.datas.mem ∧
      Datas b' fun q => refs q + if q = d then 1 else 0 := by
  obtain ⟨datas, hadd, hmem, hobject, hcounts⟩ := h.counts.addref Fault.useAfterDelete hd
  refine ⟨{ b with datas }, ?_, rfl, rfl, hobject, hmem, hcounts, fun q => ?_⟩
  · unfold datab_ref
    rw [hadd, ok_bind]
  · dsimp only
    rw [h.returned q, hmem, hobject]

/-- Only the last reference sends the buffer back. -/
theorem Datas.unref (h : Datas b refs) (hd : 0 < refs d) :
    ∃ b', datab_unref b d = .ok b' ∧ b'.mem = b.mem ∧ b'.mblk = b.mblk ∧
      b'.datas.object = b.datas.object ∧ b'.datas.mem.next = b.datas.mem.next ∧
      Datas b' fun q => refs q - if q = d then 1 else 0 := by
  have halive := h.counts.alive hd
  have href := h.counts.ref_eq d hd
  obtain ⟨datas, hrel, hobject, -, hcounts⟩ := h.counts.release Fault.useAfterDelete hd
  have hrelease := hrel
  simp only [Heap.release, halive, if_true, Except.ok.injEq] at hrelease
  refine ⟨{ b with
    datas
    returned := if datas.ref d = 0 ∧ (b.datas.object d).db_freefn then d :: b.returned
      else b.returned }, ?_, rfl, rfl, hobject, ?_, hcounts, fun q => ?_⟩
  · unfold datab_unref Heap.get
    rw [if_pos halive, ok_bind, hrel, ok_bind]
  · rw [← hrelease]
    dsimp only
    split <;> rfl
  · have hq := h.returned q
    have hnot : d ∉ b.datas.mem.deleted := halive.2
    rw [← hrelease]
    by_cases hlast : b.datas.ref d - 1 = 0
    · by_cases hqd : q = d
      · subst hqd
        simp only [hnot, false_and, if_false] at hq
        cases hfree : (b.datas.object q).db_freefn <;> simp [hlast, hq]
      · have hdq : ¬ d = q := fun heq => hqd heq.symm
        cases hfree : (b.datas.object d).db_freefn <;> simp [hlast, hq, hqd, hdq]
    · simp [hlast, hq]

end

/-! ## The blocks -/

/-- What a block shows. -/
def data (b : Blocks) (p : Nat) : List UInt8 :=
  ((b.datas.object (b.mblk p).b_datap).buffer.drop (b.mblk p).b_rptr).take
    ((b.mblk p).b_wptr - (b.mblk p).b_rptr)

/-- The blocks of `blocks` that look at the buffer of `d`. -/
def sharers (b : Blocks) (blocks : List Nat) (d : Nat) : Nat :=
  blocks.countP fun p => (b.mblk p).b_datap = d

/-- The live blocks are `blocks`, each once. `held` are the references to data blocks that a
function in the middle of its work has besides. -/
structure Sound (b : Blocks) (blocks held : List Nat) : Prop where
  accounts : Accounts b.mem fun p => blocks.count p
  datas : Datas b fun d => sharers b blocks d + held.count d
  bounds : ∀ p ∈ blocks, (b.mblk p).b_rptr ≤ (b.mblk p).b_wptr ∧
    (b.mblk p).b_wptr ≤ (b.datas.object (b.mblk p).b_datap).buffer.length

/-- The blocks of `ps` are as before and show the same. -/
def Kept (b b' : Blocks) (ps : List Nat) : Prop :=
  ∀ p ∈ ps, b'.mblk p = b.mblk p ∧ data b' p = data b p

section

variable {b b' b'' : Blocks} {blocks blocks' held ps : List Nat} {p q d : Nat}

theorem Kept.refl (b : Blocks) (ps : List Nat) : Kept b b ps := fun _ _ => ⟨rfl, rfl⟩

theorem Kept.trans (h : Kept b b' ps) (h' : Kept b' b'' ps) : Kept b b'' ps := fun p hp =>
  ⟨(h' p hp).1.trans (h p hp).1, (h' p hp).2.trans (h p hp).2⟩

theorem Kept.mono (h : Kept b b' ps) {qs : List Nat} (hsub : ∀ p ∈ qs, p ∈ ps) : Kept b b' qs :=
  fun p hp => h p (hsub p hp)

theorem kept_of_eq (hmblk : b'.mblk = b.mblk) (hobject : b'.datas.object = b.datas.object)
    (ps : List Nat) : Kept b b' ps := by
  intro p _
  simp [data, hmblk, hobject]

theorem sharers_cons (b : Blocks) (p : Nat) (blocks : List Nat) (d : Nat) :
    sharers b (p :: blocks) d = sharers b blocks d + if d = (b.mblk p).b_datap then 1 else 0 := by
  simp [sharers, List.countP_cons, eq_comm]

theorem sharers_congr (h : ∀ p ∈ blocks, (b'.mblk p).b_datap = (b.mblk p).b_datap) (d : Nat) :
    sharers b' blocks d = sharers b blocks d := by
  refine List.countP_congr fun p hp => ?_
  rw [h p hp]

theorem sharers_pos (hp : p ∈ blocks) : 0 < sharers b blocks (b.mblk p).b_datap :=
  List.countP_pos_iff.mpr ⟨p, hp, by simp⟩

theorem Sound.perm (h : Sound b blocks held) (hperm : blocks.Perm blocks') :
    Sound b blocks' held := by
  refine ⟨h.accounts.congr fun p => (hperm.count_eq p).symm,
    h.datas.congr fun d => ?_, fun p hp => h.bounds p (hperm.mem_iff.mpr hp)⟩
  simp [sharers, hperm.countP_eq]

theorem Sound.nodup (h : Sound b blocks held) : blocks.Nodup :=
  List.nodup_iff_count_le_one.mpr h.accounts.le_one

theorem Sound.fresh (h : Sound b blocks held) : b.mem.next ∉ blocks := by
  have hcount : blocks.count b.mem.next = 0 := h.accounts.fresh
  exact List.count_eq_zero.mp hcount

theorem Sound.lt_next (h : Sound b blocks held) (hp : p ∈ blocks) : p < b.mem.next := by
  have hcount : blocks.count p + b.mem.deleted.count p = if p < b.mem.next then 1 else 0 :=
    h.accounts p
  have := List.count_pos_iff.mpr hp
  split at hcount
  · assumption
  · omega

theorem Sound.not_deleted (h : Sound b blocks held) (hp : p ∈ blocks) : p ∉ b.mem.deleted :=
  h.accounts.alive (List.count_pos_iff.mpr hp)

theorem Sound.read (h : Sound b blocks held) (hp : p ∈ blocks) : b.read p = .ok (b.mblk p) :=
  if_pos ⟨h.lt_next hp, h.not_deleted hp⟩

theorem refs_pos (held : List Nat) (hp : p ∈ blocks) :
    0 < sharers b blocks (b.mblk p).b_datap + held.count (b.mblk p).b_datap :=
  Nat.add_pos_left (sharers_pos hp) _

theorem Sound.get (h : Sound b blocks held) (hp : p ∈ blocks) :
    b.datas.get Fault.useAfterDelete (b.mblk p).b_datap =
      .ok (b.datas.object (b.mblk p).b_datap) :=
  if_pos (h.datas.counts.alive (refs_pos _ hp))

theorem Sound.bytes (h : Sound b blocks held) (hp : p ∈ blocks) :
    b.bytes (b.mblk p) = .ok (data b p) := by
  unfold Blocks.bytes
  rw [h.get hp, ok_bind, if_pos (h.bounds p hp)]
  rfl

/-- A walk over live blocks, none of them twice, is no longer than the memory. -/
theorem Sound.length_le (h : Sound b blocks held) (hsub : ∀ p ∈ ps, p ∈ blocks)
    (hnodup : ps.Nodup) : ps.length ≤ b.mem.next := by
  have hrange : ps ⊆ List.range b.mem.next := fun p hp => List.mem_range.mpr (h.lt_next (hsub p hp))
  simpa using (List.subperm_of_subset hnodup hrange).length_le

theorem Sound.nodup_left {rest : List Nat} (h : Sound b (ps ++ rest) held) : ps.Nodup :=
  (List.nodup_append.mp h.nodup).1

/-! ## References that a function holds -/

theorem Sound.hold (h : Sound b blocks held) (hp : p ∈ blocks) :
    ∃ b', datab_ref b (b.mblk p).b_datap = .ok b' ∧ b'.mem = b.mem ∧ b'.mblk = b.mblk ∧
      b'.datas.object = b.datas.object ∧ Sound b' blocks ((b.mblk p).b_datap :: held) := by
  obtain ⟨b', href, hmem, hmblk, hobject, -, hdatas⟩ := h.datas.ref (refs_pos _ hp)
  refine ⟨b', href, hmem, hmblk, hobject, by rw [hmem]; exact h.accounts, hdatas.congr fun d => ?_,
    by rw [hmblk, hobject]; exact h.bounds⟩
  simp only [sharers, hmblk, List.count_cons, beq_iff_eq, eq_comm (a := d)]
  omega

/-- Nobody looks at a buffer that is not there yet. -/
theorem Sound.old_data (h : Sound b blocks held) (hp : p ∈ blocks) :
    (b.mblk p).b_datap ≠ b.datas.mem.next := by
  intro heq
  have hpos := refs_pos (b := b) held hp
  have hfresh := h.datas.counts.fresh
  rw [heq] at hpos
  omega

theorem Sound.hold_new (h : Sound b blocks held) (x : Dblk) :
    Sound { b with datas := b.datas.make x } blocks (b.datas.mem.next :: held) ∧
      Kept b { b with datas := b.datas.make x } blocks := by
  have hobject : ∀ p ∈ blocks, (b.datas.make x).object (b.mblk p).b_datap =
      b.datas.object (b.mblk p).b_datap := fun p hp => put_ne _ _ (h.old_data hp)
  refine ⟨⟨h.accounts, (h.datas.make x).congr fun d => ?_, fun p hp => ?_⟩, fun p hp => ⟨rfl, ?_⟩⟩
  · simp only [sharers, List.count_cons, beq_iff_eq, eq_comm (a := d)]
    omega
  · dsimp only
    rw [hobject p hp]
    exact h.bounds p hp
  · unfold data
    dsimp only
    rw [hobject p hp]

/-- A new block takes a reference over. -/
theorem Sound.make {m : Mblk} (h : Sound b blocks (m.b_datap :: held))
    (hbounds : m.b_rptr ≤ m.b_wptr ∧ m.b_wptr ≤ (b.datas.object m.b_datap).buffer.length) :
    Sound (b.make m).2 (b.mem.next :: blocks) held ∧ Kept b (b.make m).2 blocks := by
  have hold : ∀ p ∈ blocks, put b.mblk b.mem.next m p = b.mblk p := fun p hp =>
    put_ne _ _ fun heq => h.fresh (heq ▸ hp)
  refine ⟨⟨h.accounts.alloc.congr fun p => ?_, h.datas.frame rfl rfl fun d => ?_,
    fun p hp => ?_⟩, fun p hp => ⟨hold p hp, ?_⟩⟩
  · simp only [List.count_cons, beq_iff_eq, eq_comm (a := p)]
  · rw [sharers_cons, sharers_congr (b := b) fun p hp => congrArg Mblk.b_datap (hold p hp)]
    simp only [Blocks.make, put_self, List.count_cons, beq_iff_eq, eq_comm (a := d)]
    omega
  · rcases List.mem_cons.mp hp with rfl | hp
    · simpa [Blocks.make] using hbounds
    · simp only [Blocks.make, hold p hp]
      exact h.bounds p hp
  · simp only [data, Blocks.make, hold p hp]

/-- Nobody sees a write to a buffer at which no block looks yet. -/
theorem Sound.set_unseen (h : Sound b blocks held) {x : Dblk}
    (hfree : x.db_freefn = (b.datas.object d).db_freefn)
    (hunseen : ∀ p ∈ blocks, (b.mblk p).b_datap ≠ d) :
    Sound { b with datas := b.datas.set d x } blocks held ∧
      Kept b { b with datas := b.datas.set d x } blocks := by
  have hobject : ∀ p ∈ blocks, (b.datas.set d x).object (b.mblk p).b_datap =
      b.datas.object (b.mblk p).b_datap := fun p hp => put_ne _ _ (hunseen p hp)
  refine ⟨⟨h.accounts, (h.datas.set hfree).congr fun _ => rfl, fun p hp => ?_⟩, fun p hp => ⟨rfl, ?_⟩⟩
  · dsimp only
    rw [hobject p hp]
    exact h.bounds p hp
  · unfold data
    dsimp only
    rw [hobject p hp]

/-- A block goes over to another buffer, and takes the reference of the function to it. -/
theorem Sound.repoint {m : Mblk} (h : Sound b (p :: blocks) (m.b_datap :: held))
    (hbounds : m.b_rptr ≤ m.b_wptr ∧ m.b_wptr ≤ (b.datas.object m.b_datap).buffer.length) :
    ∃ b', datab_unref b (b.mblk p).b_datap = .ok b' ∧ b'.datas.object = b.datas.object ∧
      Sound (b'.set p m) (p :: blocks) held ∧ Kept b (b'.set p m) blocks := by
  have hp : p ∈ p :: blocks := List.mem_cons_self
  have hnot : p ∉ blocks := (List.nodup_cons.mp h.nodup).1
  obtain ⟨b', hunref, hmem, hmblk, hobject, -, hdatas⟩ := h.datas.unref (refs_pos _ hp)
  have hold : ∀ q ∈ blocks, (b'.set p m).mblk q = b.mblk q := by
    intro q hq
    rw [← hmblk]
    exact put_ne _ _ fun heq => hnot (heq ▸ hq)
  have hnew : (b'.set p m).mblk p = m := put_self _ _
  refine ⟨b', hunref, hobject, ⟨?_, ?_, ?_⟩, fun q hq => ⟨hold q hq, ?_⟩⟩
  · simp only [Blocks.set, hmem]
    exact h.accounts
  · refine hdatas.frame rfl rfl fun d => ?_
    have hsharers : sharers (b'.set p m) blocks d = sharers b blocks d :=
      sharers_congr (fun q hq => by rw [hold q hq]) d
    rw [sharers_cons, sharers_cons, hnew, hsharers]
    simp only [List.count_cons, beq_iff_eq, eq_comm (a := d)]
    omega
  · intro q hq
    rcases List.mem_cons.mp hq with rfl | hq'
    · rw [hnew]
      simp only [Blocks.set, hobject]
      exact hbounds
    · rw [hold q hq']
      simp only [Blocks.set, hobject]
      exact h.bounds q hq
  · unfold data
    rw [hold q hq]
    simp only [Blocks.set, hobject]

/-! ## One block -/

theorem Sound.freeb (h : Sound b (p :: blocks) held) :
    ∃ b', freeb b p = .ok b' ∧ b'.mem.next = b.mem.next ∧ b'.mblk = b.mblk ∧
      b'.datas.object = b.datas.object ∧ Sound b' blocks held := by
  have hp : p ∈ p :: blocks := List.mem_cons_self
  obtain ⟨b', hunref, hmem, hmblk, hobject, -, hdatas⟩ := h.datas.unref (refs_pos _ hp)
  obtain ⟨hdelete, haccounts⟩ := h.accounts.delete Fault.doubleDelete (List.count_pos_iff.mpr hp)
  refine ⟨{ b' with mem := { b'.mem with deleted := p :: b'.mem.deleted } }, ?_, ?_, hmblk, hobject,
    ?_, hdatas.frame rfl rfl fun d => ?_, fun q hq => ?_⟩
  · unfold message_blocks.freeb
    rw [h.read hp, ok_bind, hunref, ok_bind, hmem, hdelete, ok_bind]
  · dsimp only
    rw [hmem]
  · dsimp only
    rw [hmem]
    refine haccounts.congr fun q => ?_
    simp only [List.count_cons, beq_iff_eq, eq_comm (a := q)]
    omega
  · simp only [sharers, hmblk, List.countP_cons, decide_eq_true_eq, eq_comm (a := d)]
    omega
  · dsimp only
    rw [hmblk, hobject]
    exact h.bounds q (List.mem_cons_of_mem p hq)

/-- A new block on a new buffer. -/
def fresh_block (b : Blocks) (x : Dblk) : Nat × Blocks :=
  Blocks.make { b with datas := b.datas.make x } (mblk_init b.datas.mem.next)

theorem allocb_eq (b : Blocks) (size : Nat) :
    allocb b size = fresh_block b ⟨aligned, List.replicate size 0, false⟩ := rfl

theorem esballoc_eq (b : Blocks) (base : Address) (buf : List UInt8) (freefn : Bool) :
    esballoc b base buf freefn = fresh_block b ⟨base, buf, freefn⟩ := rfl

theorem Sound.fresh_block (h : Sound b blocks held) (x : Dblk) :
    ∃ b', fresh_block b x = (b.mem.next, b') ∧ Sound b' (b.mem.next :: blocks) held ∧
      Kept b b' blocks ∧ b'.mblk b.mem.next = mblk_init b.datas.mem.next ∧
      b'.datas.object b.datas.mem.next = x := by
  obtain ⟨hheld, hkept⟩ := h.hold_new x
  obtain ⟨hsound, hkept'⟩ := hheld.make (m := mblk_init b.datas.mem.next)
    ⟨Nat.le_refl 0, Nat.zero_le _⟩
  exact ⟨_, rfl, hsound, hkept.trans hkept', put_self _ _, put_self _ _⟩

theorem Sound.dupb (h : Sound b blocks held) (hp : p ∈ blocks) :
    ∃ b', dupb b p = .ok (b.mem.next, b') ∧ Sound b' (b.mem.next :: blocks) held ∧
      Kept b b' blocks ∧ b'.mblk b.mem.next = { b.mblk p with b_cont := none } ∧
      data b' b.mem.next = data b p := by
  obtain ⟨b₁, href, hmem, hmblk, hobject, hheld⟩ := h.hold hp
  obtain ⟨hsound, hkept⟩ := Sound.make (m := { b.mblk p with b_cont := none }) hheld (by
    rw [hobject]
    exact h.bounds p hp)
  rw [hmem] at hsound
  refine ⟨_, ?_, hsound, (kept_of_eq hmblk hobject blocks).trans hkept, ?_, ?_⟩
  · unfold message_blocks.dupb
    rw [h.read hp, ok_bind, href, ok_bind, ← hmem]
    rfl
  · rw [← hmem]
    exact put_self _ _
  · simp [data, Blocks.make, hmem, hobject]

/-- A block on the same buffer in the place of the old one. -/
theorem Sound.set_block (h : Sound b blocks held) {m : Mblk}
    (hdatap : m.b_datap = (b.mblk p).b_datap)
    (hbounds : m.b_rptr ≤ m.b_wptr ∧
      m.b_wptr ≤ (b.datas.object (b.mblk p).b_datap).buffer.length) :
    Sound (b.set p m) blocks held ∧ ∀ q, q ≠ p → data (b.set p m) q = data b q := by
  have hself : (b.set p m).mblk p = m := put_self _ _
  have hset : ∀ q, q ≠ p → (b.set p m).mblk q = b.mblk q := fun q hq => put_ne _ _ hq
  refine ⟨⟨h.accounts, h.datas.frame rfl rfl fun d => ?_, fun q hq => ?_⟩, fun q hq => ?_⟩
  · rw [sharers_congr (b := b) fun q hq => ?_]
    by_cases hqp : q = p
    · rw [hqp, hself, hdatap]
    · rw [hset q hqp]
  · by_cases hqp : q = p
    · rw [hqp, hself, hdatap]
      exact hbounds
    · rw [hset q hqp]
      exact h.bounds q hq
  · unfold data
    rw [hset q hq]
    rfl

/-- A new link leaves what the blocks show alone. -/
theorem Sound.set_cont (h : Sound b blocks held) (hp : p ∈ blocks) (cont : Option Nat) :
    Sound (b.set p { b.mblk p with b_cont := cont }) blocks held ∧
      ∀ q, data (b.set p { b.mblk p with b_cont := cont }) q = data b q := by
  obtain ⟨hsound, hdata⟩ := h.set_block (p := p) (m := { b.mblk p with b_cont := cont }) rfl
    (h.bounds p hp)
  refine ⟨hsound, fun q => ?_⟩
  by_cases hqp : q = p
  · subst hqp
    simp [data, Blocks.set]
  · exact hdata q hqp

/-! ## Writing -/

/-- What ends in front of the write stays. -/
theorem overwrite_before {buf bytes : List UInt8} {pos r w : Nat} (hw : w ≤ pos)
    (hpos : pos ≤ buf.length) :
    ((overwrite buf pos bytes).drop r).take (w - r) = (buf.drop r).take (w - r) := by
  rw [← List.drop_take, ← List.drop_take, take_overwrite bytes hw hpos]

/-- What ends at the write gets the bytes behind it. -/
theorem overwrite_at {buf bytes : List UInt8} {pos r : Nat} (hr : r ≤ pos)
    (hpos : pos ≤ buf.length) :
    ((overwrite buf pos bytes).drop r).take (pos + bytes.length - r) =
      (buf.drop r).take (pos - r) ++ bytes := by
  have hlen : (buf.take pos).length = pos := List.length_take_of_le hpos
  rw [← List.drop_take, ← List.drop_take, take_overwrite_end bytes hpos,
    List.drop_append_of_le_length (by omega)]

/-- The blocks after a write that fits. -/
def written (b : Blocks) (p : Nat) (bytes : List UInt8) : Blocks :=
  { b with
    datas := b.datas.set (b.mblk p).b_datap
      { b.datas.object (b.mblk p).b_datap with
        buffer := overwrite (b.datas.object (b.mblk p).b_datap).buffer (b.mblk p).b_wptr bytes }
    mblk := put b.mblk p { b.mblk p with b_wptr := (b.mblk p).b_wptr + bytes.length } }

theorem Sound.write (h : Sound b blocks held) (hp : p ∈ blocks) (bytes : List UInt8)
    (hfits : (b.mblk p).b_wptr + bytes.length ≤
      (b.datas.object (b.mblk p).b_datap).buffer.length) :
    b.write p bytes = .ok (written b p bytes) ∧ Sound (written b p bytes) blocks held ∧
      data (written b p bytes) p = data b p ++ bytes ∧
      ∀ q, q ≠ p →
        ((b.mblk q).b_datap = (b.mblk p).b_datap → (b.mblk q).b_wptr ≤ (b.mblk p).b_wptr) →
        data (written b p bytes) q = data b q := by
  obtain ⟨hle, hend⟩ := h.bounds p hp
  have hlength := length_overwrite hfits
  have hlengths : ∀ d, ((written b p bytes).datas.object d).buffer.length =
      (b.datas.object d).buffer.length := by
    intro d
    by_cases hd : d = (b.mblk p).b_datap
    · subst hd
      simpa [written, Heap.set] using hlength
    · simp [written, Heap.set, put_ne _ _ hd]
  have hdatap : ∀ q, ((written b p bytes).mblk q).b_datap = (b.mblk q).b_datap := by
    intro q
    by_cases hq : q = p
    · subst hq
      simp [written]
    · simp [written, put_ne _ _ hq]
  refine ⟨?_, ⟨h.accounts, ?_, ?_⟩, ?_, ?_⟩
  · unfold Blocks.write
    rw [h.read hp, ok_bind, h.get hp, ok_bind, if_pos hfits]
    rfl
  · refine Datas.frame (Datas.set h.datas (d := (b.mblk p).b_datap) (x :=
      { b.datas.object (b.mblk p).b_datap with
        buffer := overwrite (b.datas.object (b.mblk p).b_datap).buffer (b.mblk p).b_wptr bytes })
      rfl) rfl rfl fun d => ?_
    rw [sharers_congr fun q _ => hdatap q]
  · intro q hq
    rw [hlengths, hdatap]
    by_cases hqp : q = p
    · subst hqp
      simp only [written, put_self]
      exact ⟨Nat.le_add_right_of_le hle, hfits⟩
    · simp only [written, put_ne _ _ hqp]
      exact h.bounds q hq
  · simpa [data, written, Heap.set] using overwrite_at hle hend
  · intro q hq hclear
    simp only [data, written, Heap.set, put_ne _ _ hq]
    by_cases hd : (b.mblk q).b_datap = (b.mblk p).b_datap
    · rw [hd, put_self]
      exact overwrite_before (hclear hd) hend
    · rw [put_ne _ _ hd]

theorem Sound.write_overflows (h : Sound b blocks held) (hp : p ∈ blocks) (bytes : List UInt8)
    (hover : (b.datas.object (b.mblk p).b_datap).buffer.length <
      (b.mblk p).b_wptr + bytes.length) : b.write p bytes = .error .outOfBounds := by
  unfold Blocks.write
  rw [h.read hp, ok_bind, h.get hp, ok_bind, if_neg (Nat.not_le.mpr hover)]

/-! ## A block after another -/

/-- A new block behind `p`. -/
theorem Sound.extend (h : Sound b blocks held) (hp : p ∈ blocks) (x : Dblk) :
    ∃ b₁ b₂, message_blocks.fresh_block b x = (b.mem.next, b₁) ∧
      b₁.set p { b.mblk p with b_cont := some b.mem.next } = b₂ ∧
      Sound b₂ (b.mem.next :: blocks) held ∧
      b₂.mblk b.mem.next = mblk_init b.datas.mem.next ∧
      b₂.datas.object b.datas.mem.next = x ∧
      b₂.mblk p = { b.mblk p with b_cont := some b.mem.next } ∧
      (∀ q ∈ blocks, q ≠ p → b₂.mblk q = b.mblk q) ∧ ∀ q ∈ blocks, data b₂ q = data b q := by
  obtain ⟨b₁, halloc, hsound₁, hkept₁, hmblk₁, hobject₁⟩ := h.fresh_block x
  obtain ⟨hsound₂, hdata₂⟩ := hsound₁.set_cont (List.mem_cons_of_mem _ hp) (some b.mem.next)
  rw [(hkept₁ p hp).1] at hsound₂ hdata₂
  refine ⟨b₁, _, halloc, rfl, hsound₂, ?_, hobject₁, put_self _ _, fun q hq hne => ?_,
    fun q hq => (hdata₂ q).trans (hkept₁ q hq).2⟩
  · have hne : b.mem.next ≠ p := fun heq => h.fresh (heq ▸ hp)
    exact (put_ne _ _ hne).trans hmblk₁
  · exact (put_ne _ _ hne).trans (hkept₁ q hq).1

/-- What the callers keep in a block of their own. -/
def info (m : Mblk) : UInt32 × UInt32 := (m.reserved1, m.reserved2)

/-- `one` gives a new block that shows the same, alone in its chain. -/
def Clones (one : Blocks → Nat → Except Fault (Nat × Blocks))
    (inherits : Mblk → UInt32 × UInt32) : Prop :=
  ∀ ⦃b : Blocks⦄ ⦃blocks held : List Nat⦄ ⦃p : Nat⦄, Sound b blocks held → p ∈ blocks →
    ∃ b', one b p = .ok (b.mem.next, b') ∧ Sound b' (b.mem.next :: blocks) held ∧
      Kept b b' blocks ∧ (b'.mblk b.mem.next).b_cont = none ∧
      data b' b.mem.next = data b p ∧ info (b'.mblk b.mem.next) = inherits (b.mblk p)

theorem dupb_clones : Clones message_blocks.dupb info := by
  intro b blocks held p h hp
  obtain ⟨b', hdup, hsound, hkept, hmblk, hdata⟩ := h.dupb hp
  exact ⟨b', hdup, hsound, hkept, by rw [hmblk], hdata, by rw [hmblk]; rfl⟩

/-- A copy forgets what the callers kept in the block. -/
theorem copyb_clones : Clones message_blocks.copyb fun _ => (0, 0) := by
  intro b blocks held p h hp
  obtain ⟨b', halloc, hsound, hkept, hmblk, hobject⟩ :=
    h.fresh_block ⟨aligned, List.replicate (data b p).length 0, false⟩
  have hnew : b.mem.next ∈ b.mem.next :: blocks := List.mem_cons_self
  have hfits : (b'.mblk b.mem.next).b_wptr + (data b p).length ≤
      (b'.datas.object (b'.mblk b.mem.next).b_datap).buffer.length := by
    rw [hmblk]
    simp [mblk_init, hobject]
  obtain ⟨hwrite, hsound', hdata, hothers⟩ := hsound.write hnew _ hfits
  refine ⟨written b' b.mem.next (data b p), ?_, hsound', hkept.trans fun q hq => ⟨?_, ?_⟩, ?_, ?_, ?_⟩
  · unfold message_blocks.copyb
    rw [h.read hp, ok_bind, h.bytes hp, ok_bind, allocb_eq, halloc]
    dsimp only
    rw [hwrite, ok_bind]
  · exact put_ne _ _ fun heq => h.fresh (heq ▸ hq)
  · refine hothers q (fun heq => h.fresh (heq ▸ hq)) fun heq => ?_
    rw [hmblk, (hkept q hq).1] at heq
    exact absurd heq (h.old_data hq)
  · simp [written, hmblk, mblk_init]
  · rw [hdata]
    simp [data, hmblk, mblk_init]
  · simp [written, hmblk, mblk_init, info]

end

end zonekey_mcu.message_blocks
