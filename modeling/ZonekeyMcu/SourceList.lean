-- The list of the sources that a room member publishes. A removal frees its node, but
-- leaves it linked, and a removal that finds nothing keeps the mutex.
import ZonekeyMcu.XmppHandlers

open runs tail_list zonekey_mcu.xmpp_ua

namespace zonekey_mcu.zksignal

structure zkmuc_source_t where
  mcu : String
  cid : Int
  sid : Int
  description : Option String
  deriving DecidableEq, Repr

/-- `list` is the pair of `head` and `tail`, with its nodes. -/
structure zkmuc_ctx_t where
  mutex_4_source : Mutex
  list : TailList zkmuc_source_t

def zkmuc_ctx_new : zkmuc_ctx_t := { mutex_4_source := CreateMutex, list := .empty }

/-! ## The calls -/

/-- The result is a null pointer each time. -/
def zkmuc_add_source (ctx : zkmuc_ctx_t) (thread : Nat) (source : zkmuc_source_t) :
    Except Fault (Option Nat × zkmuc_ctx_t) := do
  let m ← WaitForSingleObject ctx.mutex_4_source thread
  let l ← ctx.list.append .useAfterDelete source
  .ok (none, { mutex_4_source := ReleaseMutex m thread, list := l })

/-- The loop ends at the node of `source` or at the end of the list. There, the call returns
with the mutex. The node that is found goes away, and the pointer to it stays. -/
def zkmuc_remove_source (ctx : zkmuc_ctx_t) (thread : Nat) (source : Option Nat) :
    Except Fault (Int × zkmuc_ctx_t) := do
  let m ← WaitForSingleObject ctx.mutex_4_source thread
  let (_, current) ← ctx.list.seek_head .useAfterDelete .neverReturns
    fun p => .ok (decide (some p = source))
  match current with
  | none => .ok (-1, { ctx with mutex_4_source := m })
  | some p =>
    let _ ← ctx.list.node Fault.useAfterDelete p
    .ok (0, { mutex_4_source := ReleaseMutex m thread, list := ctx.list.free p })

/-- The walk of `_zkmuc_source_query`, with the address of each item. -/
def zkmuc_source_items (ctx : zkmuc_ctx_t) (thread : Nat) :
    Except Fault (List (Nat × zkmuc_source_t) × zkmuc_ctx_t) := do
  let m ← WaitForSingleObject ctx.mutex_4_source thread
  let items ← ctx.list.contents .useAfterDelete .neverReturns
  .ok (items, { ctx with mutex_4_source := ReleaseMutex m thread })

inductive Call
  | add (source : zkmuc_source_t)
  | remove (source : Option Nat)
  deriving DecidableEq, Repr

def zkmuc_ctx_t.call (ctx : zkmuc_ctx_t) (thread : Nat) : Call → Except Fault zkmuc_ctx_t
  | .add source => (zkmuc_add_source ctx thread source).map Prod.snd
  | .remove source => (zkmuc_remove_source ctx thread source).map Prod.snd

/-! ## The plain sequence -/

/-- The sequence of the sources by their address. A new source comes with the address that
it was given. -/
def call_sequence (sources : List (Nat × zkmuc_source_t)) (address : Nat) :
    Call → List (Nat × zkmuc_source_t)
  | .add source => sources ++ [(address, source)]
  | .remove source => sources.eraseP fun x => decide (some x.1 = source)

/-- The list beside the sequence. -/
structure Both where
  ctx : zkmuc_ctx_t
  sources : List (Nat × zkmuc_source_t)

def step (s : Both) (a : Nat × Call) : Except Fault Both :=
  (s.ctx.call a.1 a.2).map fun ctx =>
    { ctx := ctx, sources := call_sequence s.sources s.ctx.list.fresh a.2 }

/-- A walk by any thread ends, and gives the sequence. The tail is behind the last node, and
the mutex is free. -/
structure Refines (s : Both) : Prop where
  walk : ∀ thread, (zkmuc_source_items s.ctx thread).map Prod.fst = .ok s.sources
  tail : s.ctx.list.tail = lastPlace s.sources
  free : s.ctx.mutex_4_source = CreateMutex

def Call.adds : Call → Prop
  | .add _ => True
  | .remove _ => False

/-! ## What each call does -/

structure Keeps (s : Both) : Prop where
  list : Holds s.ctx.list s.sources
  free : s.ctx.mutex_4_source = CreateMutex

theorem wait_eq (thread : Nat) :
    WaitForSingleObject CreateMutex thread = .ok { owner := some (thread, 1) } := rfl

theorem Keeps.refines {s : Both} (h : Keeps s) : Refines s := by
  refine ⟨fun thread => ?_, h.list.tail, h.free⟩
  simp only [zkmuc_source_items, h.free, wait_eq, ok_bind, h.list.contents_eq, Except.map]

theorem add_keeps (s : Both) (a : Nat × Call) (h : Keeps s) (hadds : a.2.adds) :
    ∃ t, step s a = .ok t ∧ Keeps t := by
  obtain ⟨thread, call⟩ := a
  cases call with
  | add source =>
    obtain ⟨l, happend, hl⟩ := h.list.append Fault.useAfterDelete source
    refine ⟨_, by simp only [step, zkmuc_ctx_t.call, zkmuc_add_source, h.free, wait_eq, ok_bind,
      happend, Except.map]; rfl, hl, ?_⟩
    exact release_once thread
  | remove source => exact hadds.elim

theorem seek_source {l : TailList zkmuc_source_t} {xs : List (Nat × zkmuc_source_t)}
    (h : Holds l xs) (source : Option Nat) :
    l.seek_head Fault.useAfterDelete .neverReturns (fun p => .ok (decide (some p = source))) =
      .ok (lastPlace (xs.takeWhile fun x => !decide (some x.1 = source)),
        (xs.find? fun x => decide (some x.1 = source)).map Prod.fst) :=
  h.seek_eq _ _ fun _ _ => rfl

/-- No removal leaves the list as it has to be: found or not. -/
theorem removal_breaks {s t : Both} (h : Keeps s) {thread : Nat} {source : Option Nat}
    (hstep : step s (thread, .remove source) = .ok t) : ¬ Refines t := by
  intro hr
  cases hfind : s.sources.find? fun x => decide (some x.1 = source) with
  | none =>
    simp only [step, zkmuc_ctx_t.call, zkmuc_remove_source, h.free, wait_eq, ok_bind,
      seek_source h.list, hfind, Option.map_none, Except.map] at hstep
    cases hstep
    cases hr.free
  | some x =>
    obtain ⟨-, before, after, heq, hno⟩ := List.find?_eq_some_iff_append.mp hfind
    have hlist := h.list
    rw [heq] at hlist
    obtain ⟨n, hn, -, -⟩ := hlist.chain.split
    have hnode : s.ctx.list.node Fault.useAfterDelete x.1 = .ok n := by
      simp only [TailList.node, hn]
    simp only [step, zkmuc_ctx_t.call, zkmuc_remove_source, h.free, wait_eq, ok_bind,
      seek_source h.list, hfind, Option.map_some, hnode, release_once, Except.map] at hstep
    cases hstep
    have hbefore : ∀ y ∈ before, y.1 ≠ x.1 := by
      have hnodup := hlist.nodup
      rw [List.map_append, List.map_cons] at hnodup
      exact fun y hy =>
        (List.nodup_append.mp hnodup).2.2 _ (List.mem_map_of_mem hy) _ List.mem_cons_self
    -- The node is gone, and the walk still comes to it.
    have hwalk := hr.walk thread
    cases hc : (s.ctx.list.free x.1).contents Fault.useAfterDelete .neverReturns with
    | error e => simp [zkmuc_source_items, wait_eq, hc, Except.map] at hwalk
    | ok ys =>
      exact hlist.chain.walk_freed Fault.useAfterDelete .neverReturns hbefore _ ys hc

theorem refines_adds (s : Both) (a : Nat × Call) (t : Both) (h : Keeps s)
    (hstep : step s a = .ok t) (hr : Refines t) : a.2.adds := by
  obtain ⟨thread, call⟩ := a
  cases call with
  | add source => trivial
  | remove source => exact removal_breaks h hstep hr

/-! ## The law -/

def Both.start : Both := { ctx := zkmuc_ctx_new, sources := [] }

theorem start_keeps : Keeps Both.start := ⟨holds_empty, rfl⟩

/-- The list of the sources is the sequence after every call exactly in the runs that
remove nothing: no call of `zkmuc_remove_source` does what it has to do. -/
theorem the_source_list_refines_a_sequence_while_nothing_is_removed (calls : List (Nat × Call)) :
    Along step Refines Both.start calls ↔ ∀ a ∈ calls, a.2.adds := by
  rw [along_iff_meets (fun _ h => h.refines) add_keeps refines_adds calls start_keeps,
    meets_iff_forall add_keeps calls start_keeps]

/-- A source that a conference has. -/
def some_source : zkmuc_source_t :=
  { mcu := "mcu_0@app.zonekey.com.cn", cid := 1, sid := 3, description := some "teacher" }

/-- Behind the removal of the only source, the next walk reads the freed node. Behind the
removal of a source that is not there, the next call waits for ever. -/
theorem a_removed_source_stays_linked :
    ((run step Both.start [(0, .add some_source), (0, .remove (some 0))]).bind fun s =>
        zkmuc_source_items s.ctx 0).map Prod.fst = .error .useAfterDelete ∧
      ((run step Both.start [(0, .remove none)]).bind fun s =>
        zkmuc_source_items s.ctx 1).map Prod.fst = .error .neverReturns ∧
      ¬ ∀ calls, Along step Refines Both.start calls := by
  refine ⟨by decide +kernel, by decide +kernel, fun hall => ?_⟩
  obtain ⟨-, t, hstep, hr⟩ := hall [(0, .remove none)]
  exact removal_breaks start_keeps hstep hr

end zonekey_mcu.zksignal
