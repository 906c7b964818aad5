-- Messages as chains of blocks, and what the functions that walk along a chain do to it.
import ZonekeyMcu.MessageSound

open memory raster ref_counts

namespace zonekey_mcu.message_blocks

/-! ## Chains -/

/-- The blocks are one message: `b_cont` of each one is the next. -/
def Linked (b : Blocks) : List Nat → Prop
  | [] => True
  | p :: ps => (b.mblk p).b_cont = ps.head? ∧ Linked b ps

/-- What a reader of the whole message sees. -/
def shows (b : Blocks) (ps : List Nat) : List UInt8 := ps.flatMap (data b)

section

variable {b b' : Blocks} {blocks held ps qs ms init rest : List Nat} {p q l prev fuel : Nat}

@[simp] theorem shows_nil (b : Blocks) : shows b [] = [] := rfl

@[simp] theorem shows_cons (b : Blocks) (p : Nat) (ps : List Nat) :
    shows b (p :: ps) = data b p ++ shows b ps := rfl

@[simp] theorem shows_append (b : Blocks) (ps qs : List Nat) :
    shows b (ps ++ qs) = shows b ps ++ shows b qs := by
  simp [shows]

theorem Linked.congr (hl : Linked b ps) (h : ∀ p ∈ ps, b'.mblk p = b.mblk p) : Linked b' ps := by
  induction ps with
  | nil => trivial
  | cons p ps ih =>
    obtain ⟨hcont, hrest⟩ := hl
    exact ⟨by rw [h p List.mem_cons_self]; exact hcont,
      ih hrest fun q hq => h q (List.mem_cons_of_mem p hq)⟩

theorem Kept.linked (h : Kept b b' ps) (hl : Linked b ps) : Linked b' ps :=
  hl.congr fun p hp => (h p hp).1

theorem Kept.shows (h : Kept b b' ps) : shows b' ps = shows b ps := by
  induction ps with
  | nil => rfl
  | cons p ps ih =>
    rw [shows_cons, shows_cons, (h p List.mem_cons_self).2,
      ih (h.mono fun q hq => List.mem_cons_of_mem p hq)]

/-- A chain goes on with another one behind its last block. -/
theorem linked_extend (hl : Linked b (init ++ [l]))
    (hinit : ∀ p ∈ init, (b'.mblk p).b_cont = (b.mblk p).b_cont)
    (hcont : (b'.mblk l).b_cont = qs.head?) (hqs : Linked b' qs) :
    Linked b' (init ++ l :: qs) := by
  induction init with
  | nil => exact ⟨hcont, hqs⟩
  | cons p init ih =>
    obtain ⟨hp, hrest⟩ := hl
    refine ⟨?_, ih hrest fun q hq => hinit q (List.mem_cons_of_mem p hq)⟩
    rw [hinit p List.mem_cons_self, hp]
    cases init <;> rfl

theorem linked_end (hl : Linked b (init ++ [l])) : (b.mblk l).b_cont = none := by
  induction init with
  | nil => exact hl.1
  | cons _ _ ih => exact ih hl.2

/-! ## Freeing a message -/

theorem freemsg_loop_frees (h : Sound b (ps ++ rest) held) (hl : Linked b ps)
    (hfuel : ps.length ≤ fuel) :
    ∃ b', freemsg_loop fuel b ps.head? = .ok b' ∧ b'.mem.next = b.mem.next ∧ b'.mblk = b.mblk ∧
      b'.datas.object = b.datas.object ∧ Sound b' rest held := by
  induction ps generalizing b fuel with
  | nil => exact ⟨b, by cases fuel <;> rfl, rfl, rfl, rfl, h⟩
  | cons p ps ih =>
    obtain ⟨fuel, rfl⟩ : ∃ k, fuel = k + 1 := ⟨fuel - 1, by simp at hfuel; omega⟩
    obtain ⟨b₁, hfree, hnext, hmblk, hobject, hsound⟩ := h.freeb
    have hl₁ : Linked b₁ ps := (kept_of_eq hmblk hobject ps).linked hl.2
    obtain ⟨b₂, hloop, hnext₂, hmblk₂, hobject₂, hsound₂⟩ :=
      ih hsound hl₁ (Nat.le_of_succ_le_succ hfuel)
    refine ⟨b₂, ?_, hnext₂.trans hnext, hmblk₂.trans hmblk, hobject₂.trans hobject, hsound₂⟩
    simp only [List.head?_cons, freemsg_loop]
    rw [h.read List.mem_cons_self, ok_bind, hfree, ok_bind, hl.1]
    exact hloop

theorem freemsg_frees (h : Sound b (ps ++ rest) held) (hl : Linked b ps) :
    ∃ b', freemsg b ps.head? = .ok b' ∧ b'.mem.next = b.mem.next ∧ b'.mblk = b.mblk ∧
      b'.datas.object = b.datas.object ∧ Sound b' rest held :=
  freemsg_loop_frees h hl
    (h.length_le (fun _ hp => List.mem_append_left rest hp) h.nodup_left)

/-! ## Copies of a message -/

section

variable {one : Blocks → Nat → Except Fault (Nat × Blocks)} {inherits : Mblk → UInt32 × UInt32}

/-- The clones of `ms` come behind `prev`, each behind the one before it. -/
theorem clone_loop_clones (hone : Clones one inherits) (h : Sound b (prev :: blocks) held)
    (hl : Linked b ms) (hsub : ∀ p ∈ ms, p ∈ blocks) (hcont : (b.mblk prev).b_cont = none)
    (hfuel : ms.length ≤ fuel) :
    ∃ b' qs, clone_loop one fuel b prev ms.head? = .ok b' ∧
      Sound b' (qs ++ prev :: blocks) held ∧ Kept b b' blocks ∧
      b'.mblk prev = { b.mblk prev with b_cont := qs.head? } ∧ data b' prev = data b prev ∧
      Linked b' qs ∧ shows b' qs = shows b ms := by
  induction ms generalizing b fuel prev blocks with
  | nil =>
    refine ⟨b, [], by cases fuel <;> rfl, h, Kept.refl b blocks, ?_, rfl, trivial, rfl⟩
    rw [List.head?_nil, ← hcont]
  | cons p ms ih =>
    obtain ⟨fuel, rfl⟩ : ∃ k, fuel = k + 1 := ⟨fuel - 1, by simp at hfuel; omega⟩
    have hp : p ∈ blocks := hsub p List.mem_cons_self
    have hpold : p ∈ prev :: blocks := List.mem_cons_of_mem prev hp
    have hprev : prev ∉ blocks := (List.nodup_cons.mp h.nodup).1
    obtain ⟨b₁, hclone, hsound₁, hkept₁, hnone, hdata₁, -⟩ := hone h hpold
    have hnew : prev ≠ b.mem.next := fun heq => h.fresh (heq ▸ List.mem_cons_self)
    obtain ⟨hsound₂, hdata₂⟩ := hsound₁.set_cont
      (List.mem_cons_of_mem _ List.mem_cons_self) (some b.mem.next)
    have hset : ∀ q, q ≠ prev → (b₁.set prev
        { b₁.mblk prev with b_cont := some b.mem.next }).mblk q = b₁.mblk q := fun q hq =>
      put_ne _ _ hq
    generalize hb₂ : b₁.set prev { b₁.mblk prev with b_cont := some b.mem.next } = b₂ at *
    have hkept₂ : Kept b b₂ blocks := fun q hq =>
      ⟨(hset q fun heq => hprev (heq ▸ hq)).trans (hkept₁ q (List.mem_cons_of_mem prev hq)).1,
        (hdata₂ q).trans (hkept₁ q (List.mem_cons_of_mem prev hq)).2⟩
    have hms : ∀ q ∈ ms, q ∈ blocks := fun q hq => hsub q (List.mem_cons_of_mem p hq)
    obtain ⟨b', qs, hloop, hsound', hkept', hmblk', hdata', hlinked', hshows'⟩ :=
      ih hsound₂ ((hkept₂.mono hms).linked hl.2)
        (fun q hq => List.mem_cons_of_mem prev (hms q hq))
        (by rw [hset _ hnew.symm]; exact hnone) (Nat.le_of_succ_le_succ hfuel)
    obtain ⟨hprev', hprevdata⟩ := hkept' prev List.mem_cons_self
    refine ⟨b', b.mem.next :: qs, ?_, hsound'.perm List.perm_middle,
      hkept₂.trans (hkept'.mono fun q hq => List.mem_cons_of_mem prev hq), ?_, ?_, ?_, ?_⟩
    · simp only [List.head?_cons, clone_loop]
      rw [hclone, ok_bind]
      dsimp only
      rw [hsound₁.read (List.mem_cons_of_mem _ List.mem_cons_self), ok_bind, hb₂,
        hsound₂.read (List.mem_cons_of_mem _ hpold), ok_bind, (hkept₂ p hp).1, hl.1]
      exact hloop
    · rw [hprev', ← hb₂, ← (hkept₁ prev List.mem_cons_self).1]
      exact put_self _ _
    · rw [hprevdata, hdata₂, (hkept₁ prev List.mem_cons_self).2]
    · exact ⟨by rw [hmblk'], hlinked'⟩
    · rw [shows_cons, shows_cons, hshows', hdata', hdata₂, hdata₁, (hkept₂.mono hms).shows]

theorem clone_clones (hone : Clones one inherits) (h : Sound b blocks held)
    (hl : Linked b (p :: ps)) (hsub : ∀ q ∈ p :: ps, q ∈ blocks) (hnodup : ps.Nodup) :
    ∃ b' qs, clone one b p = .ok (b.mem.next, b') ∧
      Sound b' (b.mem.next :: qs ++ blocks) held ∧ Kept b b' blocks ∧
      Linked b' (b.mem.next :: qs) ∧ shows b' (b.mem.next :: qs) = shows b (p :: ps) ∧
      info (b'.mblk b.mem.next) = inherits (b.mblk p) := by
  have hp : p ∈ blocks := hsub p List.mem_cons_self
  have hps : ∀ q ∈ ps, q ∈ blocks := fun q hq => hsub q (List.mem_cons_of_mem p hq)
  obtain ⟨b₁, hclone, hsound₁, hkept₁, hnone, hdata₁, hinfo⟩ := hone h hp
  obtain ⟨b', qs, hloop, hsound', hkept', hmblk', hdata', hlinked', hshows'⟩ :=
    clone_loop_clones hone hsound₁ ((hkept₁.mono hps).linked hl.2) hps hnone
      (h.length_le hps hnodup)
  refine ⟨b', qs, ?_, hsound'.perm List.perm_middle, hkept₁.trans hkept',
    ⟨by rw [hmblk'], hlinked'⟩, ?_, ?_⟩
  · unfold clone
    rw [hclone, ok_bind]
    dsimp only
    rw [hsound₁.read (List.mem_cons_of_mem _ hp), ok_bind, (hkept₁ p hp).1, hl.1, hloop, ok_bind]
  · rw [shows_cons, shows_cons, hshows', hdata', hdata₁, (hkept₁.mono hps).shows]
  · rw [hmblk', ← hinfo]
    rfl

end

/-! ## One buffer for the whole message -/

theorem Sound.length_data (h : Sound b blocks held) (hp : p ∈ blocks) :
    (data b p).length = (b.mblk p).b_wptr - (b.mblk p).b_rptr := by
  have := h.bounds p hp
  simp only [data, List.length_take, List.length_drop]
  omega

theorem msgdsize_shows (h : Sound b blocks held) (hl : Linked b ps)
    (hsub : ∀ p ∈ ps, p ∈ blocks) (hfuel : ps.length ≤ fuel) :
    msgdsize_loop b fuel ps.head? = .ok (shows b ps).length := by
  induction ps generalizing fuel with
  | nil => cases fuel <;> rfl
  | cons p ps ih =>
    obtain ⟨fuel, rfl⟩ : ∃ k, fuel = k + 1 := ⟨fuel - 1, by simp at hfuel; omega⟩
    have hp := hsub p List.mem_cons_self
    simp only [List.head?_cons, msgdsize_loop]
    rw [h.read hp, ok_bind, hl.1, ih hl.2 (fun q hq => hsub q (List.mem_cons_of_mem p hq))
      (Nat.le_of_succ_le_succ hfuel), ok_bind, shows_cons, List.length_append, h.length_data hp]

theorem msgpullup_loop_full {len : Nat} {done : List UInt8} (hfull : len ≤ done.length)
    (fuel : Nat) (mp : Option Nat) : msgpullup_loop b len fuel done mp = .ok done := by
  cases fuel with
  | zero => exact if_neg fun hlt => Nat.not_lt.mpr hfull hlt.1
  | succ fuel => exact if_neg (Nat.not_lt.mpr hfull)

/-- The loop takes what the message shows, as far as the length goes. -/
theorem msgpullup_loop_takes (h : Sound b blocks held) {len : Nat} {done : List UInt8}
    (hl : Linked b ps) (hsub : ∀ p ∈ ps, p ∈ blocks) (hfuel : ps.length ≤ fuel)
    (hlen : done.length ≤ len) :
    msgpullup_loop b len fuel done ps.head? =
      .ok (done ++ (shows b ps).take (len - done.length)) := by
  induction ps generalizing fuel done with
  | nil => cases fuel <;> simp [msgpullup_loop]
  | cons p ps ih =>
    obtain ⟨fuel, rfl⟩ : ∃ k, fuel = k + 1 := ⟨fuel - 1, by simp at hfuel; omega⟩
    have hp := hsub p List.mem_cons_self
    by_cases hfull : len ≤ done.length
    · rw [msgpullup_loop_full hfull, Nat.sub_eq_zero_of_le hfull, List.take_zero, List.append_nil]
    · simp only [List.head?_cons, msgpullup_loop, if_pos (Nat.lt_of_not_le hfull)]
      rw [h.read hp, ok_bind, h.bytes hp, ok_bind]
      split
      · rename_i hfits
        have hdone : (done ++ data b p).length ≤ len := by
          rw [List.length_append]
          omega
        rw [hl.1, ih hl.2 (fun q hq => hsub q (List.mem_cons_of_mem p hq))
          (Nat.le_of_succ_le_succ hfuel) hdone, shows_cons, List.take_append,
          List.take_of_length_le hfits, List.append_assoc, List.length_append, Nat.sub_sub]
      · rename_i hcut
        rw [msgpullup_loop_full (by rw [List.length_append, List.length_take]; omega), shows_cons,
          List.take_append_of_le_length (by omega)]

theorem msgpullup_loop_from_nil (h : Sound b blocks held) (hl : Linked b ps)
    (hsub : ∀ p ∈ ps, p ∈ blocks) (hfuel : ps.length ≤ fuel) (n : Nat) :
    msgpullup_loop b n fuel [] ps.head? = .ok ((shows b ps).take n) :=
  msgpullup_loop_takes h hl hsub hfuel (show ([] : List UInt8).length ≤ n from Nat.zero_le n)

theorem msgpullup_pulls (h : Sound b (p :: ps ++ rest) []) (hl : Linked b (p :: ps))
    (len : Option Nat) :
    ∃ b', msgpullup b p len = .ok b' ∧ Sound b' (p :: rest) [] ∧ Kept b b' rest ∧
      Linked b' [p] ∧ info (b'.mblk p) = info (b.mblk p) ∧
      data b' p = (shows b (p :: ps)).take (len.getD (shows b (p :: ps)).length) := by
  have hp : p ∈ p :: ps ++ rest := List.mem_cons_self
  by_cases hsame : (b.mblk p).b_cont = none ∧ len = none
  · obtain ⟨hcont, rfl⟩ := hsame
    have hps : ps = [] := List.head?_eq_none_iff.mp (hl.1.symm.trans hcont)
    subst hps
    refine ⟨b, ?_, h, Kept.refl b rest, hl, rfl, by simp⟩
    unfold msgpullup
    rw [h.read hp, ok_bind, if_pos ⟨hcont, rfl⟩]
  · have hsub : ∀ q ∈ p :: ps, q ∈ p :: ps ++ rest := fun q hq => List.mem_append_left rest hq
    have hlength : (p :: ps).length ≤ b.mem.next := h.length_le hsub h.nodup_left
    have hsize : msgdsize b p = .ok (shows b (p :: ps)).length :=
      msgdsize_shows h hl hsub hlength
    generalize hn : len.getD (shows b (p :: ps)).length = n
    have hlen : pullup_len b p len = .ok n := by
      cases len with
      | none => rw [← hn]; exact hsize
      | some k => rw [← hn]; rfl
    have hd := fun q hq => h.old_data (p := q) hq
    obtain ⟨hsound₁, hkept₁⟩ := h.hold_new ⟨aligned, List.replicate n 0, false⟩
    have hloop := msgpullup_loop_from_nil hsound₁ ((hkept₁.mono hsub).linked hl) hsub hlength n
    rw [(hkept₁.mono hsub).shows, List.head?_cons] at hloop
    have hdone : ((shows b (p :: ps)).take n).length ≤ n := List.length_take_le _ _
    generalize hdoneq : (shows b (p :: ps)).take n = done at *
    obtain ⟨hsound₂, hkept₂⟩ := hsound₁.set_unseen (d := b.datas.mem.next)
      (x := ⟨aligned, overwrite (List.replicate n 0) 0 done, false⟩) (by simp [Heap.make]) hd
    have hperm : (p :: (ps ++ rest)).Perm (ps ++ p :: rest) := List.perm_middle.symm
    obtain ⟨b₃, hfree, -, hmblk₃, hobject₃, hsound₃⟩ := freemsg_frees (hsound₂.perm hperm)
      (((hkept₁.trans hkept₂).mono fun q hq => hsub q (List.mem_cons_of_mem p hq)).linked hl.2)
    have hold₃ : b₃.mblk p = b.mblk p := by rw [hmblk₃]
    have hnew₃ : b₃.datas.object b.datas.mem.next =
        ⟨aligned, overwrite (List.replicate n 0) 0 done, false⟩ := by
      rw [hobject₃]
      exact put_self _ _
    obtain ⟨b₄, hunref, hobject₄, hsound₄, hkept₄⟩ := Sound.repoint
      (m := { b.mblk p with
        b_cont := none, b_datap := b.datas.mem.next, b_rptr := 0, b_wptr := done.length })
      hsound₃ ⟨Nat.zero_le _, by
        rw [hnew₃, length_overwrite (by simpa using hdone)]
        simpa using hdone⟩
    rw [hold₃] at hunref
    have hrest : ∀ q ∈ rest, q ∈ p :: ps ++ rest := fun q hq => List.mem_append_right _ hq
    have hkept₃ : Kept b b₃ rest := ((hkept₁.trans hkept₂).mono hrest).trans
      (kept_of_eq hmblk₃ hobject₃ rest)
    refine ⟨_, ?_, hsound₄, hkept₃.trans hkept₄, ⟨?_, trivial⟩, ?_, ?_⟩
    rotate_left
    · simp [Blocks.set]
    · simp [Blocks.set, info]
    · simp only [data, Blocks.set, put_self, hobject₄, hnew₃]
      simp [overwrite]
    · unfold msgpullup
      rw [h.read hp, ok_bind, if_neg hsame, hlen, ok_bind]
      simp only [datab_alloc]
      rw [hloop, ok_bind, hl.1, hfree, ok_bind, hunref, ok_bind]

/-! ## Appending -/

theorem last_block_finds (h : Sound b blocks held) (hl : Linked b (init ++ [l]))
    (hsub : ∀ q ∈ init ++ [l], q ∈ blocks) (hp : (init ++ [l]).head? = some p)
    (hfuel : init.length < fuel) : last_block b fuel p = .ok l := by
  induction init generalizing p fuel with
  | nil =>
    obtain ⟨fuel, rfl⟩ : ∃ k, fuel = k + 1 := ⟨fuel - 1, by omega⟩
    obtain rfl : l = p := by simpa using hp
    unfold last_block
    rw [h.read (hsub l List.mem_cons_self), ok_bind, hl.1]
    rfl
  | cons q init ih =>
    obtain ⟨fuel, rfl⟩ : ∃ k, fuel = k + 1 := ⟨fuel - 1, by omega⟩
    obtain rfl : q = p := by simpa using hp
    obtain ⟨next, hnext⟩ : ∃ next, (init ++ [l]).head? = some next :=
      ⟨_, List.head?_eq_some_head (by simp)⟩
    have hcont : (b.mblk q).b_cont = some next := hl.1.trans hnext
    unfold last_block
    rw [h.read (hsub q List.mem_cons_self), ok_bind, hcont]
    exact ih hl.2 (fun r hr => hsub r (List.mem_cons_of_mem _ hr)) hnext (by simp at hfuel; omega)

/-- The bytes, and then the padding, in a buffer that has room for both. -/
theorem Sound.write_padded (h : Sound b blocks held) (hp : p ∈ blocks)
    (bytes : List UInt8) {k : Nat} (hfits : (b.mblk p).b_wptr + bytes.length + k ≤
      (b.datas.object (b.mblk p).b_datap).buffer.length) :
    ∃ b₁ b', b.write p bytes = .ok b₁ ∧ b₁.write p (List.replicate k 0) = .ok b' ∧
      Sound b' blocks held ∧ (b'.mblk p).b_cont = (b.mblk p).b_cont ∧
      info (b'.mblk p) = info (b.mblk p) ∧ (∀ q, q ≠ p → b'.mblk q = b.mblk q) ∧
      data b' p = data b p ++ (bytes ++ List.replicate k 0) ∧
      ∀ q, q ≠ p →
        ((b.mblk q).b_datap = (b.mblk p).b_datap → (b.mblk q).b_wptr ≤ (b.mblk p).b_wptr) →
        data b' q = data b q := by
  obtain ⟨hwrite, hsound, hdata, hothers⟩ := h.write hp bytes (by omega)
  have hold : ∀ q, q ≠ p → (written b p bytes).mblk q = b.mblk q := fun q hq => put_ne _ _ hq
  have hself : (written b p bytes).mblk p =
      { b.mblk p with b_wptr := (b.mblk p).b_wptr + bytes.length } := put_self _ _
  have hroom : ((written b p bytes).mblk p).b_wptr + (List.replicate k (0 : UInt8)).length ≤
      ((written b p bytes).datas.object ((written b p bytes).mblk p).b_datap).buffer.length := by
    rw [hself, List.length_replicate]
    simp only [written, Heap.set, put_self]
    rwa [length_overwrite (by omega)]
  obtain ⟨hwrite', hsound', hdata', hothers'⟩ := hsound.write hp _ hroom
  have hself' : (written (written b p bytes) p (List.replicate k 0)).mblk p =
      { (written b p bytes).mblk p with
        b_wptr := ((written b p bytes).mblk p).b_wptr + (List.replicate k (0 : UInt8)).length } :=
    put_self _ _
  refine ⟨_, _, hwrite, hwrite', hsound', ?_, ?_, fun q hq => ?_, ?_, fun q hq hclear => ?_⟩
  · rw [hself', hself]
  · rw [hself', hself]
    rfl
  · exact (put_ne _ _ hq).trans (hold q hq)
  · rw [hdata', hdata, List.append_assoc]
  · refine (hothers' q hq fun heq => ?_).trans (hothers q hq hclear)
    rw [hold q hq, hself] at heq ⊢
    exact Nat.le_add_right_of_le (hclear heq)

/-- The padding of a write to the end of `p`. -/
def padding (b : Blocks) (p size : Nat) (pad : Bool) : Nat :=
  padcnt (b.datas.object (b.mblk p).b_datap) (b.mblk p) size pad

/-- The buffer has room for the bytes and the padding, or else a new one would have. -/
def Roomy (b : Blocks) (p size : Nat) (pad : Bool) : Prop :=
  (b.mblk p).b_wptr + size + padding b p size pad ≤
      (b.datas.object (b.mblk p).b_datap).buffer.length ∨
    size + padding b p size pad ≤
      max (b.datas.object (b.mblk p).b_datap).buffer.length size

/-- No other block sees what comes behind the end of `p`. -/
def Clear (b : Blocks) (blocks : List Nat) (p : Nat) : Prop :=
  ∀ q ∈ blocks, q ≠ p → (b.mblk q).b_datap = (b.mblk p).b_datap →
    (b.mblk q).b_wptr ≤ (b.mblk p).b_wptr

theorem padcnt_eq (b : Blocks) (p size : Nat) (pad : Bool) :
    padcnt (b.datas.object (b.mblk p).b_datap) (b.mblk p) size pad = padding b p size pad := rfl

theorem padding_le (b : Blocks) (p size : Nat) (pad : Bool) : padding b p size pad ≤ 3 := by
  unfold padding padcnt
  split <;> omega

theorem appendb_appends (h : Sound b blocks held) (hp : p ∈ blocks)
    (hend : (b.mblk p).b_cont = none) {bytes : List UInt8} {pad : Bool}
    (hroomy : Roomy b p bytes.length pad) :
    ∃ l b' qs, appendb b p bytes pad = .ok (l, b') ∧ Sound b' (qs ++ blocks) held ∧
      (∀ q ∈ blocks, q ≠ p → b'.mblk q = b.mblk q) ∧ info (b'.mblk p) = info (b.mblk p) ∧
      (b'.mblk p).b_cont = qs.head? ∧ Linked b' qs ∧
      (Clear b blocks p →
        shows b' (p :: qs) =
            data b p ++ (bytes ++ List.replicate (padding b p bytes.length pad) 0) ∧
          ∀ q ∈ blocks, q ≠ p → data b' q = data b q) := by
  by_cases hfits : (b.mblk p).b_wptr + bytes.length + padding b p bytes.length pad ≤
      (b.datas.object (b.mblk p).b_datap).buffer.length
  · obtain ⟨b₁, b', hwrite, hwrite', hsound, hcont, hinfo, hmblk, hdata, hothers⟩ :=
      h.write_padded hp bytes hfits
    refine ⟨p, b', [], ?_, hsound, fun q _ hq => hmblk q hq, hinfo, ?_, trivial, fun hclear =>
      ⟨?_, fun q hq hne => hothers q hne (hclear q hq hne)⟩⟩
    · unfold appendb
      rw [h.read hp, ok_bind, h.get hp, ok_bind]
      dsimp only
      rw [padcnt_eq, if_neg (Nat.not_lt.mpr hfits)]
      dsimp only
      rw [hwrite, ok_bind, hwrite', ok_bind]
    · rw [hcont, hend, List.head?_nil]
    · rw [shows_cons, shows_nil, List.append_nil, hdata]
  · have hroom := hroomy.resolve_left hfits
    generalize hsize : max (b.datas.object (b.mblk p).b_datap).buffer.length bytes.length = size
      at hroom
    obtain ⟨b₁, b₂, halloc, hset, hsound₂, hnew, hobject, hp₂, hmblk₂, hdata₂⟩ :=
      h.extend hp ⟨aligned, List.replicate size 0, false⟩
    have hpnew : p ≠ b.mem.next := fun heq => h.fresh (heq ▸ hp)
    obtain ⟨b₃, b', hwrite, hwrite', hsound, hcont, -, hmblk, hdata, hothers⟩ :=
      hsound₂.write_padded (p := b.mem.next) (k := padding b p bytes.length pad)
        List.mem_cons_self bytes (by
          rw [hnew]
          simpa [mblk_init, hobject] using hroom)
    -- nobody else looks at the new buffer
    have hkept : ∀ q ∈ blocks, data b' q = data b q := by
      intro q hq
      have hdatap : (b₂.mblk q).b_datap = (b.mblk q).b_datap := by
        by_cases hqp : q = p
        · rw [hqp, hp₂]
        · rw [hmblk₂ q hq hqp]
      rw [hothers q fun heq => h.fresh (heq ▸ hq), hdata₂ q hq]
      intro heq
      rw [hdatap, hnew] at heq
      exact absurd heq (h.old_data hq)
    refine ⟨b.mem.next, b', [b.mem.next], ?_, hsound, fun q hq hne => ?_, ?_, ?_, ⟨?_, trivial⟩,
      fun _ => ⟨?_, fun q hq _ => hkept q hq⟩⟩
    · unfold appendb
      rw [h.read hp, ok_bind, h.get hp, ok_bind]
      dsimp only
      rw [padcnt_eq, if_pos (Nat.lt_of_not_le hfits), hsize, allocb_eq, halloc]
      dsimp only
      rw [hset, hwrite, ok_bind, hwrite', ok_bind]
    · rw [hmblk q fun heq => h.fresh (heq ▸ hq), hmblk₂ q hq hne]
    · rw [hmblk p hpnew, hp₂]
      rfl
    · rw [hmblk p hpnew, hp₂]
      rfl
    · rw [hcont, hnew]
      rfl
    · rw [shows_cons, shows_cons, shows_nil, List.append_nil, hkept p hp, hdata]
      simp [data, hnew, mblk_init]

/-- Without the room, the padding runs over the end of the new buffer. -/
theorem appendb_overflows (h : Sound b blocks held) (hp : p ∈ blocks) {bytes : List UInt8}
    {pad : Bool} (hcramped : ¬ Roomy b p bytes.length pad) :
    appendb b p bytes pad = .error .outOfBounds := by
  rw [Roomy, not_or] at hcramped
  obtain ⟨hfull, hover⟩ := hcramped
  generalize hsize : max (b.datas.object (b.mblk p).b_datap).buffer.length bytes.length = size
    at hover
  have hle : bytes.length ≤ size := hsize ▸ Nat.le_max_right _ _
  obtain ⟨b₁, b₂, halloc, hset, hsound₂, hnew, hobject, -⟩ :=
    h.extend hp ⟨aligned, List.replicate size 0, false⟩
  obtain ⟨hwrite, hsound₃, -⟩ := hsound₂.write (p := b.mem.next)
    List.mem_cons_self bytes (by
      rw [hnew]
      simpa [mblk_init, hobject] using hle)
  have hself : (written b₂ b.mem.next bytes).mblk b.mem.next =
      { mblk_init b.datas.mem.next with b_wptr := bytes.length } := by
    simp [written, hnew, mblk_init]
  have hlength : ((written b₂ b.mem.next bytes).datas.object b.datas.mem.next).buffer.length =
      size := by
    simp only [written, hnew, mblk_init, Heap.set, put_self, hobject]
    rw [length_overwrite (by simpa using hle), List.length_replicate]
  have hwrite' := hsound₃.write_overflows List.mem_cons_self
    (List.replicate (padding b p bytes.length pad) 0) (by
      rw [hself, List.length_replicate]
      simp only [mblk_init, hlength]
      omega)
  unfold appendb
  rw [h.read hp, ok_bind, h.get hp, ok_bind]
  dsimp only
  rw [padcnt_eq, if_pos (Nat.lt_of_not_le hfull), hsize, allocb_eq, halloc]
  dsimp only
  rw [hset, hwrite, ok_bind, hwrite', error_bind]

/-- The end of a message that is one of several. -/
theorem last_block_of_message (h : Sound b (init ++ l :: rest) held) (hl : Linked b (init ++ [l]))
    (hp : (init ++ [l]).head? = some p) : last_block b b.mem.next p = .ok l := by
  have hsplit : init ++ l :: rest = (init ++ [l]) ++ rest := List.append_cons init l rest
  have hsub : ∀ q ∈ init ++ [l], q ∈ init ++ l :: rest := fun q hq =>
    hsplit ▸ List.mem_append_left rest hq
  have hlength := h.length_le hsub (Sound.nodup_left (hsplit ▸ h))
  rw [List.length_append] at hlength
  exact last_block_finds h hl hsub hp hlength

theorem msgappend_overflows (h : Sound b (init ++ l :: rest) held) (hl : Linked b (init ++ [l]))
    (hp : (init ++ [l]).head? = some p) {bytes : List UInt8} {pad : Bool}
    (hcramped : ¬ Roomy b l bytes.length pad) :
    msgappend b p bytes pad = .error .outOfBounds := by
  have hmem : l ∈ init ++ l :: rest := List.mem_append_right init List.mem_cons_self
  unfold msgappend
  rw [last_block_of_message h hl hp, ok_bind, appendb_overflows h hmem hcramped, error_bind]

theorem msgappend_appends (h : Sound b (init ++ l :: rest) held) (hl : Linked b (init ++ [l]))
    (hp : (init ++ [l]).head? = some p) {bytes : List UInt8} {pad : Bool}
    (hroomy : Roomy b l bytes.length pad) :
    ∃ b' qs, msgappend b p bytes pad = .ok b' ∧ Sound b' (init ++ l :: (qs ++ rest)) held ∧
      Linked b' (init ++ l :: qs) ∧ info (b'.mblk p) = info (b.mblk p) ∧
      (∀ q ∈ rest, b'.mblk q = b.mblk q) ∧
      (Clear b (init ++ l :: rest) l →
        shows b' (init ++ l :: qs) = shows b (init ++ [l]) ++
            (bytes ++ List.replicate (padding b l bytes.length pad) 0) ∧
          Kept b b' rest) := by
  have hlmem : l ∈ init ++ l :: rest := by simp
  have hnodup := h.nodup
  have hinit : ∀ q ∈ init, q ≠ l := fun q hq heq =>
    (List.nodup_append.mp hnodup).2.2 q hq l List.mem_cons_self heq
  have hrest : ∀ q ∈ rest, q ≠ l := fun q hq heq =>
    (List.nodup_cons.mp (List.nodup_append.mp hnodup).2.1).1 (heq ▸ hq)
  obtain ⟨l', b', qs, happend, hsound, hmblk, hinfo, hcont, hqs, hclear⟩ :=
    appendb_appends h hlmem (linked_end hl) hroomy
  refine ⟨b', qs, ?_, hsound.perm ?_, linked_extend hl (fun q hq => ?_) hcont hqs, ?_,
    fun q hq => hmblk q (by simp [hq]) (hrest q hq), fun hc => ?_⟩
  · unfold msgappend
    rw [last_block_of_message h hl hp, ok_bind, happend, ok_bind]
  · calc
      (qs ++ (init ++ l :: rest)).Perm ((init ++ l :: rest) ++ qs) := List.perm_append_comm
      _ = (init ++ [l]) ++ (rest ++ qs) := by simp
      (init ++ [l] ++ (rest ++ qs)).Perm ((init ++ [l]) ++ (qs ++ rest)) :=
        List.perm_append_comm.append_left _
      _ = init ++ l :: (qs ++ rest) := by simp
  · rw [hmblk q (by simp [hq]) (hinit q hq)]
  · by_cases hpl : p = l
    · rw [hpl, hinfo]
    · have hpmem : p ∈ (init ++ [l]) ++ rest := List.mem_append_left rest (List.mem_of_head? hp)
      rw [hmblk p (List.append_cons init l rest ▸ hpmem) hpl]
  · obtain ⟨hshows, hothers⟩ := hclear hc
    refine ⟨?_, fun q hq => ⟨hmblk q (by simp [hq]) (hrest q hq),
      hothers q (by simp [hq]) (hrest q hq)⟩⟩
    have hfirst : shows b' init = shows b init := Kept.shows fun q hq =>
      ⟨hmblk q (by simp [hq]) (hinit q hq), hothers q (by simp [hq]) (hinit q hq)⟩
    rw [shows_append, hshows, hfirst, shows_append, shows_cons, shows_nil, List.append_nil,
      List.append_assoc]

/-! ## Two messages in one -/

theorem concatb_joins {p' l' : Nat} {init' : List Nat}
    (h : Sound b (init ++ l :: (init' ++ l' :: rest)) held) (hl : Linked b (init ++ [l]))
    (hl' : Linked b (init' ++ [l'])) (hp : (init ++ [l]).head? = some p)
    (hp' : (init' ++ [l']).head? = some p') :
    ∃ b', concatb b p p' = .ok (l', b') ∧ Sound b' (init ++ l :: (init' ++ l' :: rest)) held ∧
      Linked b' (init ++ l :: (init' ++ [l'])) ∧ info (b'.mblk p) = info (b.mblk p) ∧
      (∀ q, data b' q = data b q) ∧ ∀ q, q ≠ l → b'.mblk q = b.mblk q := by
  have hlmem : l ∈ init ++ l :: (init' ++ l' :: rest) :=
    List.mem_append_right init List.mem_cons_self
  obtain ⟨hsound, hdata⟩ := h.set_cont hlmem (some p')
  have hset : ∀ q, q ≠ l → (b.set l { b.mblk l with b_cont := some p' }).mblk q = b.mblk q :=
    fun q hq => put_ne _ _ hq
  have hsetl : (b.set l { b.mblk l with b_cont := some p' }).mblk l =
      { b.mblk l with b_cont := some p' } := put_self _ _
  have hnext : (b.set l { b.mblk l with b_cont := some p' }).mem.next = b.mem.next := rfl
  generalize hb' : b.set l { b.mblk l with b_cont := some p' } = b' at *
  have hnodup := List.nodup_append.mp h.nodup
  have hinit : ∀ q ∈ init, q ≠ l := fun q hq heq => hnodup.2.2 q hq l List.mem_cons_self heq
  have hinit' : ∀ q ∈ init' ++ [l'], q ≠ l := fun q hq heq =>
    (List.nodup_cons.mp hnodup.2.1).1 (heq ▸ List.append_cons init' l' rest ▸
      List.mem_append_left rest hq)
  have hlinked' : Linked b' (init' ++ [l']) :=
    Kept.linked (fun q hq => ⟨hset q (hinit' q hq), hdata q⟩) hl'
  -- the second message, seen as the first one
  have hperm : (init ++ l :: (init' ++ l' :: rest)).Perm (init' ++ l' :: (init ++ l :: rest)) :=
    calc
      (init ++ l :: (init' ++ l' :: rest)) = ((init ++ [l]) ++ (init' ++ [l'])) ++ rest := by simp
      (((init ++ [l]) ++ (init' ++ [l'])) ++ rest).Perm
          (((init' ++ [l']) ++ (init ++ [l])) ++ rest) := List.perm_append_comm.append_right rest
      _ = init' ++ l' :: (init ++ l :: rest) := by simp
  refine ⟨b', ?_, hsound, linked_extend hl (fun q hq => ?_) ?_ hlinked', ?_, hdata, hset⟩
  · unfold concatb
    rw [last_block_of_message h hl hp, ok_bind, h.read hlmem, ok_bind]
    dsimp only
    rw [hb', last_block_of_message (hsound.perm hperm) hlinked' hp', ok_bind]
  · rw [hset q (hinit q hq)]
  · rw [hsetl, hp']
  · by_cases hpl : p = l
    · rw [hpl, hsetl]
      rfl
    · rw [hset p hpl]

end

end zonekey_mcu.message_blocks
