-- Runs of the code that works with messages. However the messages are shared, copied, joined
-- and freed, every block has one owner, every buffer counts its blocks, and nothing stays behind.
import ZonekeyMcu.Lib.Runs
import ZonekeyMcu.MessageChains

open memory ref_counts runs

namespace zonekey_mcu.message_blocks

/-! ## The code that works with messages -/

/-- `messages` are the first blocks of the messages in the hands of the filters, first the one
that they work on. `pool` is the queue of the allocator. -/
structure Owners where
  b : Blocks
  messages : List Nat
  pool : List Nat

def nobody : Owners where
  b := no_blocks
  messages := []
  pool := []

/-- What a filter does with the first message. `consume` moves `b_rptr` of the first block. -/
inductive Work
  | freemsg
  | dupmsg
  | copymsg
  | msgpullup (len : Option Nat)
  | msgappend (bytes : List UInt8) (pad : Bool)
  | concatb
  | consume (n : Nat)
  | set_info (reserved1 reserved2 : UInt32)

/-- `pick` makes another message the first one. A filter that gives its own buffer to `esballoc`
moves `b_wptr` behind it. -/
inductive Act
  | allocb (size : Nat)
  | esballoc (base : Address) (buf : List UInt8) (freefn : Bool)
  | msgb_allocator_alloc (size : Nat)
  | msgb_allocator_uninit
  | pick (i : Nat)
  | work (w : Work)

def work (s : Owners) (p : Nat) (rest : List Nat) : Work → Except Fault Owners
  | .freemsg => do
    let b ← freemsg s.b (some p)
    .ok { s with b, messages := rest }
  | .dupmsg => do
    let (q, b) ← dupmsg s.b p
    .ok { s with b, messages := q :: p :: rest }
  | .copymsg => do
    let (q, b) ← copymsg s.b p
    .ok { s with b, messages := q :: p :: rest }
  | .msgpullup len => do
    let b ← msgpullup s.b p len
    .ok { s with b }
  | .msgappend bytes pad => do
    let b ← msgappend s.b p bytes pad
    .ok { s with b }
  | .concatb => match rest with
    | [] => .ok s
    | q :: rest => do
      let (_, b) ← concatb s.b p q
      .ok { s with b, messages := p :: rest }
  | .consume n => do
    let m ← s.b.read p
    if n ≤ m.b_wptr - m.b_rptr then
      .ok { s with b := s.b.set p { m with b_rptr := m.b_rptr + n } }
    else .error .outOfBounds
  | .set_info reserved1 reserved2 => do
    let m ← s.b.read p
    .ok { s with b := s.b.set p { m with reserved1, reserved2 } }

def step (s : Owners) : Act → Except Fault Owners
  | .allocb size =>
    let (p, b) := allocb s.b size
    .ok { s with b, messages := p :: s.messages }
  | .esballoc base buf freefn =>
    let (p, b) := esballoc s.b base buf freefn
    .ok { s with
      b := b.set p { b.mblk p with b_wptr := buf.length }, messages := p :: s.messages }
  | .msgb_allocator_alloc size => do
    let (p, b, pool) ← msgb_allocator_alloc s.b s.pool size
    .ok { b, messages := p :: s.messages, pool }
  | .msgb_allocator_uninit => do
    let b ← flushq s.b s.pool
    .ok { s with b, pool := [] }
  | .pick i => match s.messages[i]? with
    | none => .ok s
    | some p => .ok { s with messages := p :: s.messages.eraseIdx i }
  | .work w => match s.messages with
    | [] => .ok s
    | p :: rest => work s p rest w

/-! ## The messages as byte strings -/

/-- What a message is to its owner. -/
structure Value where
  bytes : List UInt8
  info : UInt32 × UInt32

/-- The work on byte strings that nobody shares. Up to three zeros can follow padded bytes. -/
inductive Works : Work → List Value → List Value → Prop
  | nothing (w : Work) : Works w [] []
  | freemsg (v : Value) (vs : List Value) : Works .freemsg (v :: vs) vs
  | dupmsg (v : Value) (vs : List Value) : Works .dupmsg (v :: vs) (v :: v :: vs)
  | copymsg (v : Value) (vs : List Value) :
    Works .copymsg (v :: vs) (⟨v.bytes, (0, 0)⟩ :: v :: vs)
  | msgpullup (len : Option Nat) (v : Value) (vs : List Value) :
    Works (.msgpullup len) (v :: vs) (⟨v.bytes.take (len.getD v.bytes.length), v.info⟩ :: vs)
  | msgappend (bytes : List UInt8) (pad : Bool) (k : Nat) (v : Value) (vs : List Value) :
    k ≤ 3 → (pad = false → k = 0) →
      Works (.msgappend bytes pad) (v :: vs)
        (⟨v.bytes ++ (bytes ++ List.replicate k 0), v.info⟩ :: vs)
  | alone (v : Value) : Works .concatb [v] [v]
  | concatb (v w : Value) (vs : List Value) :
    Works .concatb (v :: w :: vs) (⟨v.bytes ++ w.bytes, v.info⟩ :: vs)
  | consume (n : Nat) (v : Value) (vs : List Value) :
    Works (.consume n) (v :: vs) (⟨v.bytes.drop n, v.info⟩ :: vs)
  | set_info (r₁ r₂ : UInt32) (v : Value) (vs : List Value) :
    Works (.set_info r₁ r₂) (v :: vs) (⟨v.bytes, (r₁, r₂)⟩ :: vs)

inductive Means : Act → List Value → List Value → Prop
  | allocb (size : Nat) (vs : List Value) : Means (.allocb size) vs (⟨[], (0, 0)⟩ :: vs)
  | esballoc (base : Address) (buf : List UInt8) (freefn : Bool) (vs : List Value) :
    Means (.esballoc base buf freefn) vs (⟨buf, (0, 0)⟩ :: vs)
  | msgb_allocator_alloc (size : Nat) (vs : List Value) :
    Means (.msgb_allocator_alloc size) vs (⟨[], (0, 0)⟩ :: vs)
  | msgb_allocator_uninit (vs : List Value) : Means .msgb_allocator_uninit vs vs
  | outside (i : Nat) (vs : List Value) : vs.length ≤ i → Means (.pick i) vs vs
  | pick (i : Nat) (v : Value) (vs : List Value) : vs[i]? = some v →
    Means (.pick i) vs (v :: vs.eraseIdx i)
  | work {w : Work} {vs vs' : List Value} : Works w vs vs' → Means (.work w) vs vs'

/-- The values after a run. -/
inductive MeansAll : List Act → List Value → List Value → Prop
  | nil (vs : List Value) : MeansAll [] vs vs
  | cons {a : Act} {acts : List Act} {vs vs' vs'' : List Value} :
    Means a vs vs' → MeansAll acts vs' vs'' → MeansAll (a :: acts) vs vs''

/-! ## The owners of the blocks -/

/-- `msgs` are the blocks of the messages. Each live block is in one message or in the pool, and
nothing was written through the blocks of the pool. -/
structure Owned (s : Owners) (msgs : List (List Nat)) : Prop where
  sound : Sound s.b (msgs.flatten ++ s.pool) []
  heads : msgs.map List.head? = s.messages.map some
  linked : ∀ ps ∈ msgs, Linked s.b ps
  pool : ∀ p ∈ s.pool, (s.b.mblk p).b_cont = none ∧ (s.b.mblk p).b_wptr = 0 ∧
    info (s.b.mblk p) = (0, 0)

/-- A message as its owner sees it. -/
def value (b : Blocks) (ps : List Nat) : Value :=
  ⟨shows b ps, ps.head?.elim (0, 0) fun p => info (b.mblk p)⟩

section

variable {s : Owners} {b b' : Blocks} {msgs : List (List Nat)} {ps : List Nat} {p : Nat}

theorem value_kept (h : Kept b b' ps) : value b' ps = value b ps := by
  unfold value
  rw [h.shows]
  cases ps with
  | nil => rfl
  | cons p ps =>
    have hp := (h p List.mem_cons_self).1
    simp [hp]

theorem values_kept (h : Kept b b' msgs.flatten) : msgs.map (value b') = msgs.map (value b) :=
  List.map_congr_left fun _ hps => value_kept (h.mono fun _ hp => List.mem_flatten_of_mem hps hp)

theorem linked_kept (h : Kept b b' msgs.flatten) (hl : ∀ ps ∈ msgs, Linked b ps) :
    ∀ ps ∈ msgs, Linked b' ps := fun ps hps =>
  (h.mono fun _ hp => List.mem_flatten_of_mem hps hp).linked (hl ps hps)

/-! ## One step -/

theorem head?_cons_iff {ps : List Nat} : ps.head? = some p ↔ ∃ tail, ps = p :: tail := by
  cases ps with
  | nil => simp
  | cons q tail => simp [eq_comm]

/-- The blocks of the first message. -/
theorem Owned.first {rest : List Nat} (h : Owned s msgs) (hm : s.messages = p :: rest) :
    ∃ ps msgs', msgs = (p :: ps) :: msgs' ∧ msgs'.map List.head? = rest.map some := by
  have hheads := h.heads
  rw [hm] at hheads
  cases msgs with
  | nil => cases hheads
  | cons qs msgs' =>
    obtain ⟨hfirst, hrest⟩ := List.cons.inj hheads
    obtain ⟨ps, rfl⟩ := head?_cons_iff.mp hfirst
    exact ⟨ps, msgs', rfl, hrest⟩

theorem Owned.update {messages' : List Nat} {msgs' : List (List Nat)} (h : Owned s msgs)
    (hsound : Sound b' (msgs'.flatten ++ s.pool) [])
    (hheads : msgs'.map List.head? = messages'.map some) (hlinked : ∀ ps ∈ msgs', Linked b' ps)
    (hpool : ∀ p ∈ s.pool, b'.mblk p = s.b.mblk p) :
    Owned { s with b := b', messages := messages' } msgs' :=
  ⟨hsound, hheads, hlinked, fun p hp => by
    dsimp only
    rw [hpool p hp]
    exact h.pool p hp⟩

/-- A new message in front of the others. -/
theorem Owned.push (h : Owned s msgs) (ps : List Nat)
    (hsound : Sound b' (p :: ps ++ (msgs.flatten ++ s.pool)) [])
    (hkept : Kept s.b b' (msgs.flatten ++ s.pool)) (hlinked : Linked b' (p :: ps)) :
    Owned { s with b := b', messages := p :: s.messages } ((p :: ps) :: msgs) ∧
      msgs.map (value b') = msgs.map (value s.b) := by
  have hmsgs : Kept s.b b' msgs.flatten := hkept.mono fun q hq => List.mem_append_left _ hq
  refine ⟨h.update (by simpa using hsound) ?_ ?_ fun q hq =>
    (hkept q (List.mem_append_right _ hq)).1, values_kept hmsgs⟩
  · rw [List.map_cons, List.map_cons, h.heads]
    rfl
  · exact List.forall_mem_cons.mpr ⟨hlinked, linked_kept hmsgs h.linked⟩

theorem push_fresh (h : Owned s msgs) (x : Dblk) :
    ∃ p b', fresh_block s.b x = (p, b') ∧
      Owned { s with b := b', messages := p :: s.messages } ([p] :: msgs) ∧
      ([p] :: msgs).map (value b') = ⟨[], (0, 0)⟩ :: msgs.map (value s.b) ∧
      b'.mblk p = mblk_init (b'.mblk p).b_datap ∧ b'.datas.object (b'.mblk p).b_datap = x := by
  obtain ⟨b', hfresh, hsound, hkept, hmblk, hobject⟩ := h.sound.fresh_block x
  obtain ⟨howned, hvalues⟩ := h.push [] hsound hkept ⟨by rw [hmblk]; rfl, trivial⟩
  refine ⟨_, b', hfresh, howned, ?_, by rw [hmblk]; rfl, by rw [hmblk]; exact hobject⟩
  rw [List.map_cons, hvalues]
  simp [value, data, hmblk, mblk_init, info]

/-- New fields in the first block of the first message. -/
theorem Owned.set_first {rest : List Nat} {msgs' : List (List Nat)} {m : Mblk}
    (h : Owned s ((p :: ps) :: msgs')) (hm : s.messages = p :: rest)
    (hcont : m.b_cont = (s.b.mblk p).b_cont) (hdatap : m.b_datap = (s.b.mblk p).b_datap)
    (hbounds : m.b_rptr ≤ m.b_wptr ∧
      m.b_wptr ≤ (s.b.datas.object (s.b.mblk p).b_datap).buffer.length) :
    Owned { s with b := s.b.set p m } ((p :: ps) :: msgs') ∧
      ((p :: ps) :: msgs').map (value (s.b.set p m)) =
        ⟨data (s.b.set p m) p ++ shows s.b ps, info m⟩ :: msgs'.map (value s.b) := by
  have hnodup : (p :: (ps ++ (msgs'.flatten ++ s.pool))).Nodup := by
    simpa using h.sound.nodup
  have hnot := (List.nodup_cons.mp hnodup).1
  obtain ⟨hsound, hdata⟩ := h.sound.set_block hdatap hbounds
  have hself : (s.b.set p m).mblk p = m := put_self _ _
  have hset : ∀ q, q ≠ p → (s.b.set p m).mblk q = s.b.mblk q := fun q hq => put_ne _ _ hq
  have hkept : Kept s.b (s.b.set p m) (ps ++ (msgs'.flatten ++ s.pool)) := fun q hq =>
    have hqp : q ≠ p := fun heq => hnot (heq ▸ hq)
    ⟨hset q hqp, hdata q hqp⟩
  have hps : Kept s.b (s.b.set p m) ps := hkept.mono fun q hq => by simp [hq]
  have hmsgs : Kept s.b (s.b.set p m) msgs'.flatten := hkept.mono fun q hq => by
    rw [List.mem_append, List.mem_append]
    exact .inr (.inl hq)
  obtain ⟨hfirst, hothers⟩ := List.forall_mem_cons.mp h.linked
  refine ⟨hm ▸ h.update hsound (hm ▸ h.heads) (List.forall_mem_cons.mpr
    ⟨⟨?_, hps.linked hfirst.2⟩, linked_kept hmsgs hothers⟩) fun q hq => ?_, ?_⟩
  · rw [hself, hcont]
    exact hfirst.1
  · exact (hkept q (by simp [hq])).1
  · rw [List.map_cons, values_kept hmsgs]
    simp [value, hps.shows, hself]

/-- The work that the source does not check itself: the padding of a new buffer, and how far a
reader goes in the first block. -/
def Allowed (s : Owners) : Act → Prop
  | .work (.msgappend bytes pad) => ∀ p l, s.messages.head? = some p →
    last_block s.b s.b.mem.next p = .ok l → Roomy s.b l bytes.length pad
  | .work (.consume n) => ∀ p, s.messages.head? = some p →
    n ≤ (s.b.mblk p).b_wptr - (s.b.mblk p).b_rptr
  | _ => True

def Blocks.Alive (b : Blocks) (p : Nat) : Prop := p < b.mem.next ∧ p ∉ b.mem.deleted

/-- An append that no other block on the same buffer can see. -/
def EndsClear (s : Owners) : Act → Prop
  | .work (.msgappend _ _) => ∀ p l, s.messages.head? = some p →
    last_block s.b s.b.mem.next p = .ok l →
    ∀ q, s.b.Alive q → q ≠ l → (s.b.mblk q).b_datap = (s.b.mblk l).b_datap →
      (s.b.mblk q).b_wptr ≤ (s.b.mblk l).b_wptr
  | _ => True

theorem Sound.alive_iff {blocks held : List Nat} (h : Sound b blocks held) :
    b.Alive p ↔ p ∈ blocks := by
  refine ⟨fun ⟨hlt, hnot⟩ => ?_, fun hp => ⟨h.lt_next hp, h.not_deleted hp⟩⟩
  have hcount : blocks.count p + b.mem.deleted.count p = if p < b.mem.next then 1 else 0 :=
    h.accounts p
  rw [List.count_eq_zero.mpr hnot, if_pos hlt] at hcount
  exact List.count_pos_iff.mp (by omega)

theorem work_freemsg {rest : List Nat} (h : Owned s msgs) (hm : s.messages = p :: rest) :
    ∃ s' msgs', work s p rest .freemsg = .ok s' ∧ s'.messages = rest ∧ Owned s' msgs' ∧
      Works .freemsg (msgs.map (value s.b)) (msgs'.map (value s'.b)) := by
  obtain ⟨ps, msgs', rfl, hheads⟩ := h.first hm
  obtain ⟨hfirst, hothers⟩ := List.forall_mem_cons.mp h.linked
  have hall : Sound s.b ((p :: ps) ++ (msgs'.flatten ++ s.pool)) [] := by simpa using h.sound
  obtain ⟨b', hfree, -, hmblk, hobject, hsound⟩ := freemsg_frees hall hfirst
  have hkept := kept_of_eq hmblk hobject msgs'.flatten
  refine ⟨{ s with b := b', messages := rest }, msgs', ?_, rfl,
    h.update hsound hheads (linked_kept hkept hothers) fun q _ => by rw [hmblk], ?_⟩
  · simp only [work]
    rw [show some p = (p :: ps).head? from rfl, hfree, ok_bind]
  · rw [List.map_cons, values_kept hkept]
    exact .freemsg _ _

theorem clone_first {rest : List Nat} {one : Blocks → Nat → Except Fault (Nat × Blocks)}
    {inherits : Mblk → UInt32 × UInt32} (hone : Clones one inherits) (h : Owned s msgs)
    (hm : s.messages = p :: rest) :
    ∃ q b' qs, clone one s.b p = .ok (q, b') ∧
      Owned { s with b := b', messages := q :: p :: rest } ((q :: qs) :: msgs) ∧
      ((q :: qs) :: msgs).map (value b') =
        ⟨(msgs.map (value s.b)).head?.elim [] Value.bytes, inherits (s.b.mblk p)⟩ ::
          msgs.map (value s.b) := by
  obtain ⟨ps, msgs', rfl, hheads⟩ := h.first hm
  obtain ⟨hfirst, -⟩ := List.forall_mem_cons.mp h.linked
  have hnodup : (p :: (ps ++ (msgs'.flatten ++ s.pool))).Nodup := by
    simpa using h.sound.nodup
  obtain ⟨b', qs, hclone, hsound, hkept, hlinked, hshows, hinfo⟩ := clone_clones hone h.sound hfirst
    (fun q hq => by simp only [List.flatten_cons, List.mem_append, hq, true_or])
    (List.nodup_append.mp (List.nodup_cons.mp hnodup).2).1
  obtain ⟨howned, hvalues⟩ := h.push _ hsound hkept hlinked
  refine ⟨_, b', qs, hclone, hm ▸ howned, ?_⟩
  rw [List.map_cons, hvalues]
  simp [value, ← hinfo, hshows]

theorem work_dupmsg {rest : List Nat} (h : Owned s msgs) (hm : s.messages = p :: rest) :
    ∃ s' msgs', work s p rest .dupmsg = .ok s' ∧ Owned s' msgs' ∧
      Works .dupmsg (msgs.map (value s.b)) (msgs'.map (value s'.b)) := by
  obtain ⟨q, b', qs, hclone, howned, hvalues⟩ := clone_first dupb_clones h hm
  refine ⟨_, _, ?_, howned, ?_⟩
  · simp only [work, dupmsg]
    rw [hclone, ok_bind]
  · obtain ⟨ps, msgs', rfl, -⟩ := h.first hm
    rw [hvalues]
    exact .dupmsg _ _

theorem work_copymsg {rest : List Nat} (h : Owned s msgs) (hm : s.messages = p :: rest) :
    ∃ s' msgs', work s p rest .copymsg = .ok s' ∧ Owned s' msgs' ∧
      Works .copymsg (msgs.map (value s.b)) (msgs'.map (value s'.b)) := by
  obtain ⟨q, b', qs, hclone, howned, hvalues⟩ := clone_first copyb_clones h hm
  refine ⟨_, _, ?_, howned, ?_⟩
  · simp only [work, copymsg]
    rw [hclone, ok_bind]
  · obtain ⟨ps, msgs', rfl, -⟩ := h.first hm
    rw [hvalues]
    exact .copymsg _ _

theorem work_msgpullup {rest : List Nat} (h : Owned s msgs) (hm : s.messages = p :: rest)
    (len : Option Nat) :
    ∃ s' msgs', work s p rest (.msgpullup len) = .ok s' ∧ Owned s' msgs' ∧
      Works (.msgpullup len) (msgs.map (value s.b)) (msgs'.map (value s'.b)) := by
  obtain ⟨ps, msgs', rfl, hheads⟩ := h.first hm
  obtain ⟨hfirst, hothers⟩ := List.forall_mem_cons.mp h.linked
  obtain ⟨b', hpull, hsound, hkept, hlinked, hinfo, hdata⟩ := msgpullup_pulls
    (show Sound s.b (p :: (ps ++ (msgs'.flatten ++ s.pool))) [] by simpa using h.sound) hfirst len
  have hmsgs : Kept s.b b' msgs'.flatten := hkept.mono fun q hq => List.mem_append_left _ hq
  refine ⟨{ s with b := b' }, [p] :: msgs', ?_, h.update (by simpa using hsound)
    (by simp [hm, hheads]) (List.forall_mem_cons.mpr ⟨hlinked, linked_kept hmsgs hothers⟩)
    fun q hq => (hkept q (List.mem_append_right _ hq)).1, ?_⟩
  · simp only [work]
    rw [hpull, ok_bind]
  · rw [List.map_cons, List.map_cons, values_kept hmsgs]
    have hvalue : value b' [p] = ⟨(value s.b (p :: ps)).bytes.take
        (len.getD (value s.b (p :: ps)).bytes.length), (value s.b (p :: ps)).info⟩ := by
      simp [value, hdata, hinfo]
    rw [hvalue]
    exact .msgpullup _ _ _

theorem work_msgappend {rest : List Nat} (h : Owned s msgs) (hm : s.messages = p :: rest)
    {bytes : List UInt8} {pad : Bool} (hallowed : Allowed s (.work (.msgappend bytes pad))) :
    ∃ s' msgs', work s p rest (.msgappend bytes pad) = .ok s' ∧ Owned s' msgs' ∧
      (EndsClear s (.work (.msgappend bytes pad)) →
        Works (.msgappend bytes pad) (msgs.map (value s.b)) (msgs'.map (value s'.b))) := by
  obtain ⟨ps, msgs', rfl, hheads⟩ := h.first hm
  obtain ⟨hfirst, hothers⟩ := List.forall_mem_cons.mp h.linked
  obtain ⟨init, l, hsplit⟩ : ∃ init l, p :: ps = init ++ [l] :=
    ⟨_, _, (List.dropLast_append_getLast (List.cons_ne_nil p ps)).symm⟩
  have hhead : (init ++ [l]).head? = some p := by rw [← hsplit]; rfl
  have hsound : Sound s.b (init ++ l :: (msgs'.flatten ++ s.pool)) [] := by
    have hsound := h.sound
    rw [List.flatten_cons, hsplit] at hsound
    simpa using hsound
  rw [hsplit] at hfirst
  have hlast := last_block_of_message hsound hfirst hhead
  have hp : s.messages.head? = some p := by rw [hm]; rfl
  obtain ⟨b', qs, happend, hsound', hlinked', hinfo, hmblk, hclear⟩ :=
    msgappend_appends hsound hfirst hhead (hallowed p l hp hlast)
  have hlinks : ∀ qs ∈ msgs', Linked b' qs := fun qs hqs =>
    (hothers qs hqs).congr fun q hq =>
      hmblk q (List.mem_append_left _ (List.mem_flatten_of_mem hqs hq))
  have hhead' : (init ++ l :: qs).head? = some p := by
    cases init with
    | nil => exact hhead
    | cons q init => exact hhead
  refine ⟨{ s with b := b' }, (init ++ l :: qs) :: msgs', ?_, h.update (by simpa using hsound')
    (by simp [hm, hheads, hhead']) (List.forall_mem_cons.mpr ⟨hlinked', hlinks⟩)
    fun q hq => hmblk q (List.mem_append_right _ hq), fun hends => ?_⟩
  · simp only [work]
    rw [happend, ok_bind]
  · obtain ⟨hshows, hkept⟩ := hclear fun q hq hne hdatap =>
      hends p l hp hlast q (hsound.alive_iff.mpr hq) hne hdatap
    rw [List.map_cons, List.map_cons,
      values_kept (hkept.mono fun q hq => List.mem_append_left _ hq), hsplit]
    have hvalue : value b' (init ++ l :: qs) = ⟨(value s.b (init ++ [l])).bytes ++
        (bytes ++ List.replicate (padding s.b l bytes.length pad) 0),
        (value s.b (init ++ [l])).info⟩ := by
      simp only [value, hshows, hhead, hhead', Option.elim_some, hinfo]
    rw [hvalue]
    exact .msgappend _ _ _ _ _ (padding_le _ _ _ _) fun hpad => by rw [hpad]; rfl

theorem work_concatb {rest : List Nat} (h : Owned s msgs) (hm : s.messages = p :: rest) :
    ∃ s' msgs', work s p rest .concatb = .ok s' ∧ Owned s' msgs' ∧
      Works .concatb (msgs.map (value s.b)) (msgs'.map (value s'.b)) := by
  obtain ⟨ps, msgs', rfl, hheads⟩ := h.first hm
  obtain ⟨hfirst, hothers⟩ := List.forall_mem_cons.mp h.linked
  cases rest with
  | nil =>
    obtain rfl : msgs' = [] := by simpa using hheads
    exact ⟨s, _, rfl, h, .alone _⟩
  | cons q rest =>
    cases msgs' with
    | nil => cases hheads
    | cons qs' msgs' =>
      obtain ⟨hq, hheads'⟩ := List.cons.inj hheads
      obtain ⟨qs, rfl⟩ := head?_cons_iff.mp hq
      obtain ⟨hsecond, hothers'⟩ := List.forall_mem_cons.mp hothers
      obtain ⟨init, l, hsplit⟩ : ∃ init l, p :: ps = init ++ [l] :=
        ⟨_, _, (List.dropLast_append_getLast (List.cons_ne_nil p ps)).symm⟩
      obtain ⟨init', l', hsplit'⟩ : ∃ init' l', q :: qs = init' ++ [l'] :=
        ⟨_, _, (List.dropLast_append_getLast (List.cons_ne_nil q qs)).symm⟩
      have hsound : Sound s.b (init ++ l :: (init' ++ l' :: (msgs'.flatten ++ s.pool))) [] := by
        have hsound := h.sound
        rw [List.flatten_cons, List.flatten_cons, hsplit, hsplit'] at hsound
        simpa using hsound
      have hnodup := List.nodup_append.mp hsound.nodup
      have hnot : ∀ r ∈ msgs'.flatten ++ s.pool, r ≠ l := fun r hr heq =>
        (List.nodup_cons.mp hnodup.2.1).1 (heq ▸ List.mem_append_right init'
          (List.mem_cons_of_mem l' hr))
      obtain ⟨b', hconcat, hsound', hlinked', hinfo, hdata, hmblk⟩ :=
        concatb_joins hsound (hsplit ▸ hfirst) (hsplit' ▸ hsecond)
          (show (init ++ [l]).head? = some p by rw [← hsplit]; rfl)
          (show (init' ++ [l']).head? = some q by rw [← hsplit']; rfl)
      have hmsgs : Kept s.b b' msgs'.flatten := fun r hr =>
        ⟨hmblk r (hnot r (List.mem_append_left _ hr)), hdata r⟩
      have hjoin : init ++ l :: (init' ++ [l']) = (p :: ps) ++ (q :: qs) := by
        rw [hsplit, hsplit']
        simp
      rw [hjoin] at hlinked'
      refine ⟨{ s with b := b', messages := p :: rest }, ((p :: ps) ++ (q :: qs)) :: msgs', ?_,
        h.update ?_ (by simp [hheads'])
        (List.forall_mem_cons.mpr ⟨hlinked', linked_kept hmsgs hothers'⟩)
        fun r hr => hmblk r (hnot r (List.mem_append_right _ hr)), ?_⟩
      · simp only [work]
        rw [hconcat, ok_bind]
      · rw [List.flatten_cons, hsplit, hsplit']
        simpa using hsound'
      · rw [List.map_cons, List.map_cons, List.map_cons, values_kept hmsgs]
        have hvalue : value b' (p :: ps ++ q :: qs) = ⟨(value s.b (p :: ps)).bytes ++
            (value s.b (q :: qs)).bytes, (value s.b (p :: ps)).info⟩ := by
          simp [value, shows, hinfo, funext hdata]
        rw [hvalue]
        exact .concatb _ _ _

theorem work_consume {rest : List Nat} (h : Owned s msgs) (hm : s.messages = p :: rest) {n : Nat}
    (hallowed : n ≤ (s.b.mblk p).b_wptr - (s.b.mblk p).b_rptr) :
    ∃ s' msgs', work s p rest (.consume n) = .ok s' ∧ Owned s' msgs' ∧
      Works (.consume n) (msgs.map (value s.b)) (msgs'.map (value s'.b)) := by
  obtain ⟨ps, msgs', rfl, -⟩ := h.first hm
  have hp : p ∈ ((p :: ps) :: msgs').flatten ++ s.pool := List.mem_cons_self
  obtain ⟨hle, hend⟩ := h.sound.bounds p hp
  obtain ⟨howned, hvalues⟩ := h.set_first hm
    (m := { s.b.mblk p with b_rptr := (s.b.mblk p).b_rptr + n }) rfl rfl
    ⟨by dsimp only; omega, hend⟩
  have hlength := h.sound.length_data hp
  have hdata : data (s.b.set p { s.b.mblk p with b_rptr := (s.b.mblk p).b_rptr + n }) p =
      (data s.b p).drop n := by
    simp only [data, Blocks.set, put_self]
    rw [List.drop_take, List.drop_drop, Nat.sub_sub]
  refine ⟨_, _, ?_, howned, ?_⟩
  · simp only [work]
    rw [h.sound.read hp, ok_bind, if_pos hallowed]
  · rw [hvalues, hdata, ← List.drop_append_of_le_length (hlength ▸ hallowed)]
    exact .consume n _ _

theorem work_set_info {rest : List Nat} (h : Owned s msgs) (hm : s.messages = p :: rest)
    (reserved1 reserved2 : UInt32) :
    ∃ s' msgs', work s p rest (.set_info reserved1 reserved2) = .ok s' ∧ Owned s' msgs' ∧
      Works (.set_info reserved1 reserved2) (msgs.map (value s.b)) (msgs'.map (value s'.b)) := by
  obtain ⟨ps, msgs', rfl, -⟩ := h.first hm
  have hp : p ∈ ((p :: ps) :: msgs').flatten ++ s.pool := List.mem_cons_self
  obtain ⟨howned, hvalues⟩ := h.set_first hm (m := { s.b.mblk p with reserved1, reserved2 }) rfl rfl
    (h.sound.bounds p hp)
  refine ⟨_, _, ?_, howned, ?_⟩
  · simp only [work]
    rw [h.sound.read hp, ok_bind]
  · have hdata : data (s.b.set p { s.b.mblk p with reserved1, reserved2 }) p = data s.b p := by
      simp [data, Blocks.set]
    rw [hvalues, hdata]
    exact .set_info reserved1 reserved2 _ _

theorem work_owned {rest : List Nat} (h : Owned s msgs) (hm : s.messages = p :: rest) {w : Work}
    (hallowed : Allowed s (.work w)) :
    ∃ s' msgs', work s p rest w = .ok s' ∧ Owned s' msgs' ∧
      (EndsClear s (.work w) → Works w (msgs.map (value s.b)) (msgs'.map (value s'.b))) := by
  cases w with
  | msgappend bytes pad => exact work_msgappend h hm hallowed
  | freemsg =>
    obtain ⟨s', msgs', hwork, -, howned, hvalues⟩ := work_freemsg h hm
    exact ⟨s', msgs', hwork, howned, fun _ => hvalues⟩
  | dupmsg =>
    obtain ⟨s', msgs', hwork, howned, hvalues⟩ := work_dupmsg h hm
    exact ⟨s', msgs', hwork, howned, fun _ => hvalues⟩
  | copymsg =>
    obtain ⟨s', msgs', hwork, howned, hvalues⟩ := work_copymsg h hm
    exact ⟨s', msgs', hwork, howned, fun _ => hvalues⟩
  | msgpullup len =>
    obtain ⟨s', msgs', hwork, howned, hvalues⟩ := work_msgpullup h hm len
    exact ⟨s', msgs', hwork, howned, fun _ => hvalues⟩
  | concatb =>
    obtain ⟨s', msgs', hwork, howned, hvalues⟩ := work_concatb h hm
    exact ⟨s', msgs', hwork, howned, fun _ => hvalues⟩
  | consume n =>
    obtain ⟨s', msgs', hwork, howned, hvalues⟩ := work_consume h hm
      (hallowed p (by rw [hm, List.head?_cons]))
    exact ⟨s', msgs', hwork, howned, fun _ => hvalues⟩
  | set_info reserved1 reserved2 =>
    obtain ⟨s', msgs', hwork, howned, hvalues⟩ := work_set_info h hm reserved1 reserved2
    exact ⟨s', msgs', hwork, howned, fun _ => hvalues⟩

/-! ## The allocator -/

theorem flushq_frees {blocks pool : List Nat} (h : Sound b (pool ++ blocks) [])
    (hpool : ∀ p ∈ pool, (b.mblk p).b_cont = none) :
    ∃ b', flushq b pool = .ok b' ∧ b'.mblk = b.mblk ∧ b'.datas.object = b.datas.object ∧
      Sound b' blocks [] := by
  induction pool generalizing b with
  | nil => exact ⟨b, rfl, rfl, rfl, h⟩
  | cons p pool ih =>
    have hall : Sound b ([p] ++ (pool ++ blocks)) [] := h
    obtain ⟨b₁, hfree, -, hmblk, hobject, hsound⟩ :=
      freemsg_frees hall ⟨hpool p List.mem_cons_self, trivial⟩
    obtain ⟨b', hflush, hmblk', hobject', hsound'⟩ := ih hsound fun q hq => by
      rw [hmblk]
      exact hpool q (List.mem_cons_of_mem p hq)
    refine ⟨b', ?_, hmblk'.trans hmblk, hobject'.trans hobject, hsound'⟩
    unfold flushq
    rw [show some p = [p].head? from rfl, hfree, ok_bind, hflush]

/-- The lookup gives a block of the queue whose buffer no other block looks at. -/
theorem lookup_finds {blocks pool : List Nat} (h : Sound b blocks []) (size : Nat)
    (hpool : ∀ p ∈ pool, p ∈ blocks) :
    (∃ p ∈ pool, lookup b size pool = .ok (some p) ∧ b.datas.ref (b.mblk p).b_datap = 1 ∧
        size ≤ (b.datas.object (b.mblk p).b_datap).buffer.length) ∨
      lookup b size pool = .ok none ∧ ∀ p ∈ pool, ¬ (b.datas.ref (b.mblk p).b_datap = 1 ∧
        size ≤ (b.datas.object (b.mblk p).b_datap).buffer.length) := by
  induction pool with
  | nil => exact .inr ⟨rfl, fun p hp => absurd hp List.not_mem_nil⟩
  | cons p pool ih =>
    have hp := hpool p List.mem_cons_self
    unfold lookup
    rw [h.read hp, ok_bind, h.get hp, ok_bind]
    split
    · rename_i hfound
      exact .inl ⟨p, List.mem_cons_self, rfl, hfound⟩
    · rename_i hnot
      rcases ih fun q hq => hpool q (List.mem_cons_of_mem p hq) with
        ⟨q, hq, hlookup, hfound⟩ | ⟨hlookup, hnone⟩
      · exact .inl ⟨q, List.mem_cons_of_mem p hq, hlookup, hfound⟩
      · exact .inr ⟨hlookup, List.forall_mem_cons.mpr ⟨hnot, hnone⟩⟩

/-- A block of the pool has nothing to show, and neither has its duplicate. -/
theorem dup_pool (h : Owned s msgs) (hp : p ∈ s.pool) :
    ∃ q b', dupb s.b p = .ok (q, b') ∧
      Owned { s with b := b', messages := q :: s.messages } ([q] :: msgs) ∧
      ([q] :: msgs).map (value b') = ⟨[], (0, 0)⟩ :: msgs.map (value s.b) := by
  have hmem : p ∈ msgs.flatten ++ s.pool := List.mem_append_right _ hp
  obtain ⟨-, hwptr, hinfo⟩ := h.pool p hp
  obtain ⟨b', hdup, hsound, hkept, hmblk, hdata⟩ := h.sound.dupb hmem
  obtain ⟨howned, hvalues⟩ := h.push [] hsound hkept ⟨by rw [hmblk]; rfl, trivial⟩
  have hempty : data s.b p = [] := by simp [data, hwptr]
  have hnone : info (b'.mblk s.b.mem.next) = (0, 0) := by rw [hmblk, ← hinfo]; rfl
  refine ⟨_, b', hdup, howned, ?_⟩
  rw [List.map_cons, hvalues]
  simp [value, hdata, hempty, hnone]

theorem push_pool (h : Owned s msgs) (size : Nat) :
    ∃ p b', allocb s.b size = (p, b') ∧ Owned { s with b := b', pool := s.pool ++ [p] } msgs ∧
      msgs.map (value b') = msgs.map (value s.b) := by
  obtain ⟨b', hfresh, hsound, hkept, hmblk, -⟩ :=
    h.sound.fresh_block ⟨aligned, List.replicate size 0, false⟩
  have hmsgs : Kept s.b b' msgs.flatten := hkept.mono fun q hq => List.mem_append_left _ hq
  refine ⟨_, b', hfresh, ⟨hsound.perm ?_, h.heads, linked_kept hmsgs h.linked, fun q hq => ?_⟩,
    values_kept hmsgs⟩
  · rw [← List.append_assoc]
    exact (List.perm_append_singleton _ _).symm
  · rcases List.mem_append.mp hq with hq | hq
    · dsimp only
      rw [(hkept q (List.mem_append_right _ hq)).1]
      exact h.pool q hq
    · rw [List.mem_singleton.mp hq]
      simp [hmblk, mblk_init, info]

theorem alloc_owned (h : Owned s msgs) (size : Nat) :
    ∃ p b' pool, msgb_allocator_alloc s.b s.pool size = .ok (p, b', pool) ∧
      Owned { b := b', messages := p :: s.messages, pool } ([p] :: msgs) ∧
      ([p] :: msgs).map (value b') = ⟨[], (0, 0)⟩ :: msgs.map (value s.b) := by
  rcases lookup_finds h.sound size fun p hp => List.mem_append_right _ hp with
    ⟨p, hp, hlookup, -⟩ | ⟨hlookup, -⟩
  · obtain ⟨q, b', hdup, howned, hvalues⟩ := dup_pool h hp
    refine ⟨q, b', s.pool, ?_, howned, hvalues⟩
    unfold msgb_allocator_alloc
    rw [hlookup, ok_bind]
    dsimp only
    rw [hdup, ok_bind]
  · obtain ⟨p, b₁, halloc, howned₁, hvalues₁⟩ := push_pool h size
    obtain ⟨q, b', hdup, howned, hvalues⟩ :=
      dup_pool howned₁ (List.mem_append_right _ (List.mem_singleton.mpr rfl))
    refine ⟨q, b', s.pool ++ [p], ?_, howned, hvalues.trans (by rw [hvalues₁])⟩
    unfold msgb_allocator_alloc
    rw [hlookup, ok_bind]
    dsimp only
    rw [halloc]
    dsimp only
    rw [hdup, ok_bind]

/-! ## Every step -/

theorem step_owned (h : Owned s msgs) {a : Act} (hallowed : Allowed s a) :
    ∃ s' msgs', step s a = .ok s' ∧ Owned s' msgs' ∧
      (EndsClear s a → Means a (msgs.map (value s.b)) (msgs'.map (value s'.b))) := by
  cases a with
  | allocb size =>
    obtain ⟨p, b', hfresh, howned, hvalues, -⟩ := push_fresh h ⟨aligned, List.replicate size 0, false⟩
    refine ⟨_, _, ?_, howned, fun _ => ?_⟩
    · simp only [step]
      rw [allocb_eq, hfresh]
    · rw [hvalues]
      exact .allocb size _
  | esballoc base buf freefn =>
    obtain ⟨p, b', hfresh, howned, hvalues, hmblk, hobject⟩ := push_fresh h ⟨base, buf, freefn⟩
    obtain ⟨howned', hvalues'⟩ := howned.set_first rfl
      (m := { b'.mblk p with b_wptr := buf.length }) rfl rfl
      ⟨by rw [hmblk]; exact Nat.zero_le _, by simp only [hobject, Nat.le_refl]⟩
    have hdata : data (b'.set p { b'.mblk p with b_wptr := buf.length }) p = buf := by
      simp only [data, Blocks.set, put_self, hobject]
      rw [hmblk]
      simp [mblk_init]
    have hinfo : info { b'.mblk p with b_wptr := buf.length } = (0, 0) := by
      rw [hmblk]
      rfl
    refine ⟨_, _, ?_, howned', fun _ => ?_⟩
    · simp only [step]
      rw [esballoc_eq, hfresh]
    · dsimp only at hvalues' ⊢
      rw [hvalues', hdata, hinfo, shows_nil, List.append_nil, (List.cons.inj hvalues).2]
      exact .esballoc base buf freefn _
  | msgb_allocator_alloc size =>
    obtain ⟨p, b', pool, halloc, howned, hvalues⟩ := alloc_owned h size
    refine ⟨_, _, ?_, howned, fun _ => ?_⟩
    · simp only [step]
      rw [halloc, ok_bind]
    · rw [hvalues]
      exact .msgb_allocator_alloc size _
  | msgb_allocator_uninit =>
    obtain ⟨b', hflush, hmblk, hobject, hsound⟩ := flushq_frees
      (h.sound.perm List.perm_append_comm) fun p hp => (h.pool p hp).1
    have hkept := kept_of_eq hmblk hobject msgs.flatten
    refine ⟨{ s with b := b', pool := [] }, msgs, ?_, ⟨by simpa using hsound, h.heads,
      linked_kept hkept h.linked, fun p hp => absurd hp List.not_mem_nil⟩, fun _ => ?_⟩
    · simp only [step]
      rw [hflush, ok_bind]
    · rw [values_kept hkept]
      exact .msgb_allocator_uninit _
  | pick i =>
    have hlength : msgs.length = s.messages.length := by
      simpa using congrArg List.length h.heads
    unfold step
    dsimp only
    cases hget : s.messages[i]? with
    | none =>
      have hle := List.getElem?_eq_none_iff.mp hget
      exact ⟨s, msgs, rfl, h, fun _ => .outside i _ (by rw [List.length_map, hlength]; exact hle)⟩
    | some p =>
      obtain ⟨hlt, hp⟩ := List.getElem?_eq_some_iff.mp hget
      have hlt' : i < msgs.length := hlength ▸ hlt
      have hperm : (msgs[i] :: msgs.eraseIdx i).Perm msgs := List.getElem_cons_eraseIdx_perm hlt'
      have hhead : msgs[i].head? = some p := by
        have hget' := congrArg (fun l => l[i]?) h.heads
        simp only [List.getElem?_map, List.getElem?_eq_getElem hlt', hget, Option.map_some] at hget'
        exact Option.some.inj hget'
      refine ⟨_, msgs[i] :: msgs.eraseIdx i, rfl, ⟨?_, ?_, fun ps hps => ?_, h.pool⟩, fun _ => ?_⟩
      · exact h.sound.perm (hperm.symm.flatten.append_right _)
      · rw [List.map_cons, List.map_cons, hhead, ← List.eraseIdx_map, ← List.eraseIdx_map, h.heads]
      · exact h.linked ps (hperm.mem_iff.mp hps)
      · rw [List.map_cons, ← List.eraseIdx_map]
        exact .pick i _ _ (by simp [hlt'])
  | work w =>
    unfold step
    cases hm : s.messages with
    | nil =>
      have hmsgs : msgs = [] := by simpa [hm] using h.heads
      subst hmsgs
      exact ⟨s, [], rfl, h, fun _ => .work (.nothing w)⟩
    | cons p rest =>
      obtain ⟨s', msgs', hwork, howned, hvalues⟩ := work_owned h hm hallowed
      exact ⟨s', msgs', hwork, howned, fun hends => .work (hvalues hends)⟩

/-- What the work is not allowed to do ends outside a buffer. -/
theorem step_overflows (h : Owned s msgs) {a : Act} (hnot : ¬ Allowed s a) :
    step s a = .error .outOfBounds := by
  cases a with
  | work w =>
    cases hm : s.messages with
    | nil =>
      refine absurd ?_ hnot
      cases w <;> simp [Allowed, hm]
    | cons p rest =>
      obtain ⟨ps, msgs', rfl, -⟩ := h.first hm
      obtain ⟨hfirst, -⟩ := List.forall_mem_cons.mp h.linked
      cases w with
      | msgappend bytes pad =>
        obtain ⟨init, l, hsplit⟩ : ∃ init l, p :: ps = init ++ [l] :=
          ⟨_, _, (List.dropLast_append_getLast (List.cons_ne_nil p ps)).symm⟩
        have hhead : (init ++ [l]).head? = some p := by rw [← hsplit]; rfl
        have hsound : Sound s.b (init ++ l :: (msgs'.flatten ++ s.pool)) [] := by
          have hsound := h.sound
          rw [List.flatten_cons, hsplit] at hsound
          simpa using hsound
        rw [hsplit] at hfirst
        have hlast := last_block_of_message hsound hfirst hhead
        have hcramped : ¬ Roomy s.b l bytes.length pad := by
          intro hroomy
          refine hnot fun q k hq hk => ?_
          rw [hm] at hq
          cases hq
          rw [hlast] at hk
          cases hk
          exact hroomy
        simp only [step, hm, work]
        rw [msgappend_overflows hsound hfirst hhead hcramped, error_bind]
      | consume n =>
        have hp : p ∈ ((p :: ps) :: msgs').flatten ++ s.pool := List.mem_cons_self
        have hover : ¬ n ≤ (s.b.mblk p).b_wptr - (s.b.mblk p).b_rptr := by
          intro hle
          refine hnot fun q hq => ?_
          rw [hm] at hq
          cases hq
          exact hle
        simp only [step, hm, work]
        rw [h.sound.read hp, ok_bind, if_neg hover]
      | freemsg => exact absurd trivial hnot
      | dupmsg => exact absurd trivial hnot
      | copymsg => exact absurd trivial hnot
      | msgpullup len => exact absurd trivial hnot
      | concatb => exact absurd trivial hnot
      | set_info r₁ r₂ => exact absurd trivial hnot
  | allocb size => exact absurd trivial hnot
  | esballoc base buf freefn => exact absurd trivial hnot
  | msgb_allocator_alloc size => exact absurd trivial hnot
  | msgb_allocator_uninit => exact absurd trivial hnot
  | pick i => exact absurd trivial hnot

/-! ## Every run -/

theorem nobody_owned : Owned nobody [] :=
  ⟨⟨accounts_new, ⟨(counts_empty _).congr fun d => by simp [sharers, nobody], fun d => by
    simp [nobody, no_blocks, Heap.empty, Memory.new]⟩, fun p hp => absurd hp List.not_mem_nil⟩, rfl,
    fun ps hps => absurd hps List.not_mem_nil, fun p hp => absurd hp List.not_mem_nil⟩

theorem run_owned (h : Owned s msgs) {acts : List Act} (hc : Meets step Allowed s acts) :
    ∃ s' msgs', run step s acts = .ok s' ∧ Owned s' msgs' := by
  induction acts generalizing s msgs with
  | nil => exact ⟨s, msgs, rfl, h⟩
  | cons a acts ih =>
    obtain ⟨s₁, msgs₁, hstep, howned, -⟩ := step_owned h hc.1
    rw [run_cons_ok acts hstep]
    exact ih howned (hc.2 s₁ hstep)

theorem run_values (h : Owned s msgs) {acts : List Act}
    (hc : Meets step (fun s a => Allowed s a ∧ EndsClear s a) s acts) :
    ∃ s' msgs', run step s acts = .ok s' ∧ Owned s' msgs' ∧
      MeansAll acts (msgs.map (value s.b)) (msgs'.map (value s'.b)) := by
  induction acts generalizing s msgs with
  | nil => exact ⟨s, msgs, rfl, h, .nil _⟩
  | cons a acts ih =>
    obtain ⟨⟨hallowed, hends⟩, hrest⟩ := hc
    obtain ⟨s₁, msgs₁, hstep, howned, hvalues⟩ := step_owned h hallowed
    obtain ⟨s', msgs', hrun, howned', hvalues'⟩ := ih howned (hrest s₁ hstep)
    exact ⟨s', msgs', by rw [run_cons_ok acts hstep, hrun], howned', .cons (hvalues hends) hvalues'⟩

/-- The blocks that look at a buffer, of those that are not free. -/
def lookers (b : Blocks) (d : Nat) : Nat :=
  (List.range b.mem.next).countP fun p => p ∉ b.mem.deleted ∧ (b.mblk p).b_datap = d

theorem Sound.lookers_eq {blocks : List Nat} (h : Sound b blocks []) (d : Nat) :
    lookers b d = sharers b blocks d := by
  have hperm : ((List.range b.mem.next).filter fun p => p ∉ b.mem.deleted).Perm blocks := by
    refine (List.perm_ext_iff_of_nodup (List.nodup_range.filter _) h.nodup).mpr fun p => ?_
    rw [← h.alive_iff]
    simp [Blocks.Alive]
  rw [sharers, ← hperm.countP_eq, List.countP_filter, lookers]
  refine List.countP_congr fun p _ => ?_
  simp [and_comm]

/-- The owners give everything back. -/
def farewell (s : Owners) : List Act :=
  List.replicate s.messages.length (.work .freemsg) ++ [.msgb_allocator_uninit]

theorem free_messages (h : Owned s msgs) :
    ∃ s', run step s (List.replicate s.messages.length (.work .freemsg)) = .ok s' ∧
      Owned s' [] := by
  induction hm : s.messages generalizing s msgs with
  | nil =>
    have hmsgs : msgs = [] := by simpa [hm] using h.heads
    exact ⟨s, rfl, hmsgs ▸ h⟩
  | cons p rest ih =>
    obtain ⟨s₁, msgs₁, hwork, hmessages, howned, -⟩ := work_freemsg h hm
    obtain ⟨s', hrun, howned'⟩ := ih howned hmessages
    refine ⟨s', ?_, howned'⟩
    have hstep : step s (.work .freemsg) = .ok s₁ := by
      simp only [step, hm]
      exact hwork
    rw [List.length_cons, List.replicate_succ, run_cons_ok _ hstep]
    exact hrun

theorem farewell_frees (h : Owned s msgs) :
    ∃ s', run step s (farewell s) = .ok s' ∧ Sound s'.b [] [] := by
  obtain ⟨s₁, hrun, howned⟩ := free_messages h
  obtain ⟨b', hflush, -, -, hsound⟩ := flushq_frees
    (howned.sound.perm List.perm_append_comm) fun p hp => (howned.pool p hp).1
  refine ⟨{ s₁ with b := b', pool := [] }, ?_, hsound⟩
  rw [farewell, run_append _ hrun]
  simp only [run, step]
  rw [hflush, ok_bind]

end

/-- However messages are made, shared, copied, joined and freed: a run faults exactly when an
append or a reader leaves its buffer. Each buffer counts the blocks that look at it. When the
owners have given everything back, nothing is left, and each buffer with a `db_freefn` went back
to it once. -/
theorem every_buffer_is_freed_once (acts : List Act) :
    ((∃ s, run step nobody acts = .ok s) ↔ Meets step Allowed nobody acts) ∧
      ∀ s, run step nobody acts = .ok s →
        (∀ d, if s.b.datas.Alive d then s.b.datas.ref d = lookers s.b d ∧ 0 < lookers s.b d
          else lookers s.b d = 0) ∧
        ∃ s', run step s (farewell s) = .ok s' ∧ (∀ p, ¬ s'.b.Alive p) ∧
          (∀ d, ¬ s'.b.datas.Alive d) ∧
          ∀ d, s'.b.returned.count d =
            if d < s'.b.datas.mem.next ∧ (s'.b.datas.object d).db_freefn then 1 else 0 := by
  have hends : (∃ s, run step nobody acts = .ok s) ↔ Meets step Allowed nobody acts := by
    refine ends_iff_meets (I := fun s => ∃ msgs, Owned s msgs) ?_ ?_ acts ⟨[], nobody_owned⟩
    · rintro s a ⟨msgs, h⟩ hallowed
      obtain ⟨s', msgs', hstep, howned, -⟩ := step_owned h hallowed
      exact ⟨s', hstep, msgs', howned⟩
    · rintro s a ⟨msgs, h⟩ hnot
      exact ⟨_, step_overflows h hnot⟩
  refine ⟨hends, fun s hrun => ?_⟩
  obtain ⟨s₁, msgs, hrun₁, howned⟩ := run_owned nobody_owned (hends.mp ⟨s, hrun⟩)
  rw [hrun] at hrun₁
  cases hrun₁
  have hcounts := howned.sound.datas.counts
  have hlookers : ∀ d, lookers s.b d = sharers s.b (msgs.flatten ++ s.pool) d + [].count d :=
    fun d => howned.sound.lookers_eq d
  refine ⟨fun d => ?_, ?_⟩
  · rw [hlookers d]
    split
    · rename_i halive
      have hpos := hcounts.alive_iff.mp halive
      exact ⟨hcounts.ref_eq d hpos, hpos⟩
    · rename_i hdead
      exact Nat.eq_zero_of_not_pos fun hpos => hdead (hcounts.alive_iff.mpr hpos)
  · obtain ⟨s', hfarewell, hsound⟩ := farewell_frees howned
    have hdead : ∀ d, ¬ s'.b.datas.Alive d := by
      intro d halive
      have hpos := hsound.datas.counts.alive_iff.mp halive
      simp [sharers] at hpos
    refine ⟨s', hfarewell, fun p halive => ?_, hdead, fun d => ?_⟩
    · exact List.not_mem_nil (hsound.alive_iff.mp halive)
    · rw [hsound.datas.returned d]
      have hd : d ∈ s'.b.datas.mem.deleted ↔ d < s'.b.datas.mem.next := by
        have hcount := hsound.datas.counts.accounts d
        simp only [sharers, List.countP_nil, List.count_nil, if_true, Nat.zero_add] at hcount
        rw [← List.count_pos_iff, hcount]
        split <;> simp [*]
      simp only [hd]

/-- What `msgpullup` would lay into one buffer, and what the callers keep in the first block. -/
def whole (b : Blocks) (p : Nat) : Except Fault (List UInt8 × (UInt32 × UInt32)) := do
  let m ← b.read p
  let size ← msgdsize b p
  let bytes ← msgpullup_loop b size b.mem.next [] (some p)
  .ok (bytes, info m)

theorem whole_reads {s : Owners} {msgs : List (List Nat)} (h : Owned s msgs) :
    s.messages.map (whole s.b) = msgs.map fun ps =>
      .ok ((value s.b ps).bytes, (value s.b ps).info) := by
  have hfirst : ∀ ps ∈ msgs, ∀ p, ps.head? = some p →
      whole s.b p = .ok ((value s.b ps).bytes, (value s.b ps).info) := by
    intro ps hps p hp
    obtain ⟨tail, rfl⟩ := head?_cons_iff.mp hp
    have hsub : ∀ q ∈ p :: tail, q ∈ msgs.flatten ++ s.pool := fun q hq =>
      List.mem_append_left _ (List.mem_flatten_of_mem hps hq)
    have hnodup : (p :: tail).Nodup :=
      (List.nodup_append.mp h.sound.nodup).1.sublist (List.sublist_flatten_of_mem hps)
    have hlength := h.sound.length_le hsub hnodup
    have hlinked := h.linked _ hps
    have hsize : msgdsize s.b p = .ok (shows s.b (p :: tail)).length :=
      msgdsize_shows h.sound hlinked hsub hlength
    have hloop := msgpullup_loop_from_nil h.sound hlinked hsub hlength
      (shows s.b (p :: tail)).length
    rw [List.take_length] at hloop
    unfold whole
    rw [h.sound.read (hsub p List.mem_cons_self), ok_bind, hsize, ok_bind,
      show some p = (p :: tail).head? from rfl, hloop, ok_bind]
    rfl
  have hheads := h.heads
  generalize s.messages = messages at *
  clear h
  induction msgs generalizing messages with
  | nil =>
    obtain rfl : messages = [] := by simpa using hheads.symm
    rfl
  | cons ps msgs ih =>
    cases messages with
    | nil => cases hheads
    | cons p messages =>
      obtain ⟨hp, hrest⟩ := List.cons.inj hheads
      obtain ⟨hps, hothers⟩ := List.forall_mem_cons.mp hfirst
      rw [List.map_cons, List.map_cons, hps p hp, ih hothers messages hrest]

/-- While nobody appends behind what another block on the buffer shows, the shared buffers cannot
be told from byte strings of each owner's own. -/
theorem messages_read_as_byte_strings (acts : List Act)
    (h : Meets step (fun s a => Allowed s a ∧ EndsClear s a) nobody acts) :
    ∃ s vs, run step nobody acts = .ok s ∧ MeansAll acts [] vs ∧
      s.messages.map (whole s.b) = vs.map fun v => .ok (v.bytes, v.info) := by
  obtain ⟨s, msgs, hrun, howned, hvalues⟩ := run_values nobody_owned h
  refine ⟨s, _, hrun, hvalues, ?_⟩
  rw [whole_reads howned, List.map_map]
  rfl

/-- A message is written, duplicated, and read by the owner of the duplicate. -/
theorem messages_read_as_byte_strings_example :
    ∃ s vs, run step nobody [.allocb 8, .work (.msgappend [1, 2] true), .work .dupmsg,
        .work (.consume 1), .work .concatb] = .ok s ∧
      MeansAll [.allocb 8, .work (.msgappend [1, 2] true), .work .dupmsg,
        .work (.consume 1), .work .concatb] [] vs ∧
      s.messages.map (whole s.b) = vs.map fun v => .ok (v.bytes, v.info) := by
  refine messages_read_as_byte_strings _ (meets_cons ⟨trivial, trivial⟩ rfl
    (meets_cons ⟨fun p l hp hl => ?_, fun p l hp hl q hq hne _ => ?_⟩ rfl
    (meets_cons ⟨trivial, trivial⟩ rfl (meets_cons ⟨fun p hp => ?_, trivial⟩ rfl
    (meets_cons ⟨trivial, trivial⟩ rfl (meets_nil _))))))
  · cases hp
    cases hl
    exact .inl (by decide)
  · cases hp
    cases hl
    exact absurd (Nat.lt_one_iff.mp hq.1) hne
  · cases hp
    decide

/-- Both owners append to their duplicate of one message, and the second write is seen twice. -/
example : (run step nobody [.allocb 8, .work (.msgappend [1] false), .work .dupmsg,
    .work (.msgappend [2] false), .pick 1, .work (.msgappend [3] false)]).map
      (fun s => s.messages.map (whole s.b)) =
    .ok [.ok ([1, 3], (0, 0)), .ok ([1, 3], (0, 0))] := by
  decide

end zonekey_mcu.message_blocks
