-- What a client makes of the answer to a command that adds a source, a stream or a sink. Four
-- values are read from the option string into a table, and a key that the string does not have
-- leaves its value as it was, which is not set at all.
import ZonekeyMcu.Options
import ZonekeyMcu.Lib.Memory
import ZonekeyMcu.Lib.LastWins
import Mathlib.Data.Fin.VecNotation

open memory last_wins zonekey_mcu.options

namespace zonekey_mcu.command_answers

/-- What a handler may not do with its memory. -/
inductive Misuse
  /-- A read or a `free` of a pointer that was never set. -/
  | uninitialised
  /-- A second `free` of one block. -/
  | doubleFree
  deriving DecidableEq, Repr

/-- A copy that `strdup` made. -/
structure CText where
  ptr : Nat
  text : String
  deriving DecidableEq, Repr

def strdup (mem : Memory) (text : String) : CText × Memory :=
  ({ ptr := mem.next, text := text }, mem.alloc.2)

/-- The value is not set until the table is filled. -/
structure mse_option_table where
  key : CText
  value : Option CText

/-! ## The table -/

/-- The text before the first `=`, and the text after it, if there is one. -/
def key_and_value (piece : List Char) : Option (String × String) :=
  if '=' ∈ piece then
    some (String.ofList (piece.takeWhile (· ≠ '=')),
      String.ofList (piece.dropWhile (· ≠ '=')).tail)
  else none

section

variable {count : Nat}

/-- One turn of the loop. A value that no row takes is not freed. -/
def fill_row (table : Fin count → mse_option_table) (mem : Memory) (piece : List Char) :
    (Fin count → mse_option_table) × Memory :=
  match key_and_value piece with
  | none => (table, mem)
  | some (key, text) =>
    let (value, mem) := strdup mem text
    (fun i => if (table i).key.text = key then { table i with value := some value } else table i,
      mem)

def fill_rows (table : Fin count → mse_option_table) (mem : Memory) :
    List (List Char) → (Fin count → mse_option_table) × Memory
  | [] => (table, mem)
  | piece :: pieces =>
    let (table, mem) := fill_row table mem piece
    fill_rows table mem pieces

def get_mse_option_table (table : Fin count → mse_option_table) (option : String) (mem : Memory) :
    Except Misuse ((Fin count → mse_option_table) × Memory) := do
  let (option_cpy, mem) := strdup mem option
  let (table, mem) := fill_rows table mem (option_pieces option)
  let mem ← mem.delete .doubleFree option_cpy.ptr
  return (table, mem)

end

/-! ## The handlers -/

structure zkmcu_cf_ins where
  mcu : String
  cid : Int
  deriving DecidableEq, Repr

structure zkmcu_media_endpoint where
  cf : zkmcu_cf_ins
  sid : Int
  server_ip : String
  rtp_port : Int
  rtcp_port : Int
  deriving DecidableEq, Repr

/-- A command that waits for its answer: the block of its data, and what the client has
allocated besides. Nothing was freed that was not allocated. -/
structure Waiting where
  mem : Memory
  data : Nat
  cf : zkmcu_cf_ins
  allocated : ∀ p ∈ mem.deleted, p < mem.next
  data_allocated : data < mem.next
  data_live : data ∉ mem.deleted

/-- `params[i].value`, which has to be set. -/
def value_of (params : Fin 4 → mse_option_table) (i : Fin 4) : Except Misuse CText :=
  match (params i).value with
  | some value => .ok value
  | none => .error .uninitialised

/-- An `int` that is stored as an `unsigned int`. -/
def unsigned (n : Int) : Int := n % 4294967296

/-- The keys of the table, with nothing set under them. -/
def new_params (keys : Fin 4 → String) (mem : Memory) : (Fin 4 → mse_option_table) × Memory :=
  let (key0, mem) := strdup mem (keys 0)
  let (key1, mem) := strdup mem (keys 1)
  let (key2, mem) := strdup mem (keys 2)
  let (key3, mem) := strdup mem (keys 3)
  (fun i => { key := ![key0, key1, key2, key3] i, value := none }, mem)

/-- The keys of a handler. Only the first one is its own. -/
def keys_of (id_key : String) : Fin 4 → String :=
  ![id_key, "server_ip", "server_rtp_port", "server_rtcp_port"]

/-- The blocks that a handler frees: the rows of its table, the endpoint, and the data of the
command. -/
def freed (params : Fin 4 → mse_option_table) (values : Fin 4 → CText) (lsi data : Nat) :
    List Nat :=
  [(params 0).key.ptr, (values 0).ptr, (params 1).key.ptr, (values 1).ptr,
    (params 2).key.ptr, (values 2).ptr, (params 3).key.ptr, (values 3).ptr, lsi, data]

/-- The part of a handler after the table was filled. The callback is called between the reads
of the values and the calls of `free`. -/
def use_params (w : Waiting) (lsi : Nat) (params : Fin 4 → mse_option_table) (mem : Memory) :
    Except Misuse ((Option zkmcu_media_endpoint × Int) × Memory) := do
  let id ← value_of params 0
  let server_ip ← value_of params 1
  let rtp_port ← value_of params 2
  let rtcp_port ← value_of params 3
  let mem ← Memory.delete_all .doubleFree
    (freed params ![id, server_ip, rtp_port, rtcp_port] lsi w.data) mem
  return ((some
    { cf := w.cf
      sid := atoi id.text
      server_ip := server_ip.text
      rtp_port := unsigned (atoi rtp_port.text)
      rtcp_port := unsigned (atoi rtcp_port.text) }, 0), mem)

/-- A handler: what the callback is called with, and the memory after it. -/
def add_result (id_key : String) (w : Waiting) (result option : String) :
    Except Misuse ((Option zkmcu_media_endpoint × Int) × Memory) := do
  if result = "ok" then
    let (lsi, mem) := w.mem.alloc
    let (params, mem) := new_params (keys_of id_key) mem
    let (params, mem) ← get_mse_option_table params option mem
    use_params w lsi params mem
  else
    let mem ← w.mem.delete .doubleFree w.data
    return ((none, -1), mem)

def add_source_result := add_result "sid"

def add_stream_result := add_result "streamid"

def add_sink_result := add_result "sinkid"

/-! ## The pairs of an answer -/

/-- The pairs of the pieces that have a `=`. -/
def key_value_pairs (option : String) : List (String × String) :=
  (option_pieces option).filterMap key_and_value

/-- The callback gets the value of the last pair with each of the four keys. The handler freed
nothing twice, and read nothing that was not set. -/
def Handled (handler : Waiting → String → String →
    Except Misuse ((Option zkmcu_media_endpoint × Int) × Memory)) (id_key : String) (w : Waiting)
    (option : String) : Prop :=
  ∃ id server_ip rtp_port rtcp_port mem,
    last id_key (key_value_pairs option) = some id ∧
    last "server_ip" (key_value_pairs option) = some server_ip ∧
    last "server_rtp_port" (key_value_pairs option) = some rtp_port ∧
    last "server_rtcp_port" (key_value_pairs option) = some rtcp_port ∧
    handler w "ok" option = .ok ((some
      { cf := w.cf
        sid := atoi id
        server_ip := server_ip
        rtp_port := unsigned (atoi rtp_port)
        rtcp_port := unsigned (atoi rtcp_port) }, 0), mem)

/-- Each of the four keys stands in the option string. -/
def Complete (id_key : String) (option : String) : Prop :=
  ∀ i, ∃ pair ∈ key_value_pairs option, pair.1 = keys_of id_key i

/-! ## The filled table -/

/-- The table after some pairs: under each key the last value, in a block of its own that was
made since `start`. -/
structure Filled {count : Nat} (keys : Fin count → CText) (start : Memory)
    (pairs : List (String × String)) (table : Fin count → mse_option_table) (mem : Memory) :
    Prop where
  key : ∀ i, (table i).key = keys i
  value : ∀ i, (table i).value.map CText.text = last (keys i).text pairs
  fresh : ∀ i v, (table i).value = some v → start.next ≤ v.ptr ∧ v.ptr < mem.next
  distinct : ∀ i j v v', i ≠ j → (table i).value = some v → (table j).value = some v' →
    v.ptr ≠ v'.ptr
  grows : start.next ≤ mem.next
  deleted : mem.deleted = start.deleted

section

variable {count : Nat} {keys : Fin count → CText} {start mem : Memory}
  {pairs : List (String × String)} {table : Fin count → mse_option_table}

theorem filled_nothing (hkey : ∀ i, (table i).key = keys i) (hvalue : ∀ i, (table i).value = none)
    (mem : Memory) : Filled keys mem [] table mem where
  key := hkey
  value i := by rw [hvalue i, Option.map_none, last_nil]
  fresh i v hv := by
    rw [hvalue i] at hv
    cases hv
  distinct i j v v' _ hv _ := by
    rw [hvalue i] at hv
    cases hv
  grows := Nat.le_refl _
  deleted := rfl

/-- A new value goes to the row of its key, and no other row has that key. -/
theorem Filled.pair (h : Filled keys start pairs table mem)
    (hkeys : ∀ i j, i ≠ j → (keys i).text ≠ (keys j).text) (key text : String) :
    Filled keys start (pairs ++ [(key, text)])
      (fun i => if (table i).key.text = key then
        { table i with value := some { ptr := mem.next, text := text } } else table i)
      mem.alloc.2 := by
  have hrow : ∀ i, (table i).key.text = (keys i).text := fun i => by rw [h.key i]
  refine ⟨fun i => ?_, fun i => ?_, fun i v hv => ?_, fun i j v v' hij hv hv' => ?_,
    Nat.le_succ_of_le h.grows, h.deleted⟩
  · dsimp only
    split <;> exact h.key i
  · rw [last_snoc, hrow i]
    by_cases hi : (keys i).text = key
    · rw [if_pos hi, if_pos hi.symm]
      rfl
    · rw [if_neg hi, if_neg (Ne.symm hi)]
      exact h.value i
  · change _ ∧ v.ptr < mem.next + 1
    dsimp only at hv
    split at hv
    · cases hv
      exact ⟨h.grows, Nat.lt_succ_self _⟩
    · have hold := h.fresh i v hv
      omega
  · dsimp only at hv hv'
    rw [hrow i] at hv
    rw [hrow j] at hv'
    split at hv
    · split at hv'
      · rename_i hi hj
        exact absurd (hi.trans hj.symm) (hkeys i j hij)
      · cases hv
        have hold := h.fresh j v' hv'
        dsimp only
        omega
    · split at hv'
      · cases hv'
        have hold := h.fresh i v hv
        dsimp only
        omega
      · exact h.distinct i j v v' hij hv hv'

theorem Filled.row (h : Filled keys start pairs table mem)
    (hkeys : ∀ i j, i ≠ j → (keys i).text ≠ (keys j).text) (piece : List Char) :
    Filled keys start (pairs ++ (key_and_value piece).toList)
      (fill_row table mem piece).1 (fill_row table mem piece).2 := by
  unfold fill_row
  cases key_and_value piece with
  | none =>
    rw [Option.toList_none, List.append_nil]
    exact h
  | some pair => exact h.pair hkeys pair.1 pair.2

theorem Filled.rows (h : Filled keys start pairs table mem)
    (hkeys : ∀ i j, i ≠ j → (keys i).text ≠ (keys j).text) (pieces : List (List Char)) :
    Filled keys start (pairs ++ pieces.filterMap key_and_value)
      (fill_rows table mem pieces).1 (fill_rows table mem pieces).2 := by
  induction pieces generalizing pairs table mem with
  | nil =>
    rw [List.filterMap_nil, List.append_nil]
    exact h
  | cons piece pieces ih =>
    have hrest := ih (h.row hkeys piece)
    rw [List.append_assoc] at hrest
    cases hpiece : key_and_value piece with
    | none =>
      rw [hpiece] at hrest
      rw [List.filterMap_cons_none hpiece]
      exact hrest
    | some pair =>
      rw [hpiece] at hrest
      rw [List.filterMap_cons_some hpiece]
      exact hrest

/-- The table that is read from an option string. The copy of the string is freed. -/
theorem table_filled (hkey : ∀ i, (table i).key = keys i) (hvalue : ∀ i, (table i).value = none)
    (hkeys : ∀ i j, i ≠ j → (keys i).text ≠ (keys j).text)
    (hmem : ∀ p ∈ mem.deleted, p < mem.next) (option : String) : ∃ table' mem',
      get_mse_option_table table option mem =
        .ok (table', { mem' with deleted := mem.next :: mem.deleted }) ∧
      Filled keys mem.alloc.2 (key_value_pairs option) table' mem' := by
  have hfilled := (filled_nothing hkey hvalue mem.alloc.2).rows hkeys (option_pieces option)
  refine ⟨_, _, ?_, hfilled⟩
  unfold get_mse_option_table strdup
  dsimp only
  have hlive : mem.next ∉ (fill_rows table mem.alloc.2 (option_pieces option)).2.deleted := by
    rw [hfilled.deleted]
    intro hdel
    exact Nat.lt_irrefl _ (hmem _ hdel)
  rw [Memory.delete, if_neg hlive, hfilled.deleted]
  rfl

end

/-! ## The handlers -/

section

variable {id_key : String} {w : Waiting} {option : String}

/-- The blocks of the keys, when the first one goes to `start`. -/
def key_block (id_key : String) (start : Nat) (i : Fin 4) : CText where
  ptr := start + i.val
  text := keys_of id_key i

/-- The answer is read into a table of the four keys, and then used. -/
theorem add_result_fills (hkeys : ∀ i j, i ≠ j → keys_of id_key i ≠ keys_of id_key j)
    (w : Waiting) (option : String) : ∃ params mem start,
      start.next = w.mem.next + 6 ∧
      Filled (key_block id_key (w.mem.next + 1)) start (key_value_pairs option) params mem ∧
      add_result id_key w "ok" option = use_params w w.mem.next params
        { mem with deleted := (w.mem.next + 5) :: w.mem.deleted } := by
  have hkey : ∀ i, ((new_params (keys_of id_key) w.mem.alloc.2).1 i).key =
      key_block id_key (w.mem.next + 1) i := by
    intro i
    match i with
    | 0 | 1 | 2 | 3 => rfl
  have hvalue : ∀ i, ((new_params (keys_of id_key) w.mem.alloc.2).1 i).value = none := fun i => rfl
  have hmem : ∀ p ∈ (new_params (keys_of id_key) w.mem.alloc.2).2.deleted,
      p < (new_params (keys_of id_key) w.mem.alloc.2).2.next := fun p hp =>
    Nat.lt_of_lt_of_le (w.allocated p hp) (Nat.le_add_right w.mem.next 5)
  obtain ⟨params, mem, htable, hfilled⟩ := table_filled hkey hvalue hkeys hmem option
  refine ⟨params, mem, _, rfl, hfilled, ?_⟩
  rw [add_result, if_pos rfl]
  change (get_mse_option_table (new_params (keys_of id_key) w.mem.alloc.2).1 option
    (new_params (keys_of id_key) w.mem.alloc.2).2 >>= fun r =>
      use_params w w.mem.next r.1 r.2) = _
  rw [htable]
  rfl

/-- A row that no pair was stored in ends the handler with a read of nothing. -/
theorem use_params_cases (params : Fin 4 → mse_option_table) (w : Waiting) (lsi : Nat)
    (mem : Memory) :
    (∃ values : Fin 4 → CText, ∀ i, (params i).value = some (values i)) ∨
      (∃ i, (params i).value = none) ∧
        use_params w lsi params mem = .error .uninitialised := by
  unfold use_params value_of
  cases h0 : (params 0).value with
  | none => exact .inr ⟨⟨0, h0⟩, rfl⟩
  | some id =>
    cases h1 : (params 1).value with
    | none => exact .inr ⟨⟨1, h1⟩, rfl⟩
    | some server_ip =>
      cases h2 : (params 2).value with
      | none => exact .inr ⟨⟨2, h2⟩, rfl⟩
      | some rtp_port =>
        cases h3 : (params 3).value with
        | none => exact .inr ⟨⟨3, h3⟩, rfl⟩
        | some rtcp_port =>
          refine .inl ⟨![id, server_ip, rtp_port, rtcp_port], fun i => ?_⟩
          match i with
          | 0 => exact h0
          | 1 => exact h1
          | 2 => exact h2
          | 3 => exact h3

/-- The blocks that a handler frees are all different, and none was freed before. -/
theorem blocks_freed {params : Fin 4 → mse_option_table} {values : Fin 4 → CText} (mem : Memory)
    (hkey : ∀ i, (params i).key.ptr = w.mem.next + 1 + i.val)
    (hfresh : ∀ i, w.mem.next + 6 ≤ (values i).ptr)
    (hne : ∀ i j, i ≠ j → (values i).ptr ≠ (values j).ptr) :
    ∃ mem', Memory.delete_all Misuse.doubleFree (freed params values w.mem.next w.data)
      { mem with deleted := (w.mem.next + 5) :: w.mem.deleted } = .ok mem' := by
  have hdata := w.data_allocated
  have hf0 := hfresh 0
  have hf1 := hfresh 1
  have hf2 := hfresh 2
  have hf3 := hfresh 3
  refine delete_all_distinct _ ?_ ?_
  · have h01 := hne 0 1 (by decide)
    have h02 := hne 0 2 (by decide)
    have h03 := hne 0 3 (by decide)
    have h12 := hne 1 2 (by decide)
    have h13 := hne 1 3 (by decide)
    have h23 := hne 2 3 (by decide)
    simp [freed, hkey]
    omega
  · have hold : ∀ p, w.mem.next ≤ p → p ∉ w.mem.deleted := fun p hp hdel =>
      absurd (w.allocated p hdel) (Nat.not_lt.mpr hp)
    intro p hp
    rw [List.mem_cons, not_or]
    simp [freed, hkey] at hp
    by_cases hpd : p = w.data
    · subst hpd
      exact ⟨by omega, w.data_live⟩
    · exact ⟨by omega, hold p (by omega)⟩

/-- With every value set the handler calls back, and frees each block once. -/
theorem use_params_set {params : Fin 4 → mse_option_table} {mem start : Memory}
    {values : Fin 4 → CText} (hvalues : ∀ i, (params i).value = some (values i))
    (hstart : start.next = w.mem.next + 6)
    (h : Filled (key_block id_key (w.mem.next + 1)) start (key_value_pairs option) params mem) :
    ∃ mem', use_params w w.mem.next params
        { mem with deleted := (w.mem.next + 5) :: w.mem.deleted } =
      .ok ((some
        { cf := w.cf
          sid := atoi (values 0).text
          server_ip := (values 1).text
          rtp_port := unsigned (atoi (values 2).text)
          rtcp_port := unsigned (atoi (values 3).text) }, 0), mem') := by
  have hkey : ∀ i, (params i).key.ptr = w.mem.next + 1 + i.val := fun i => by rw [h.key i]; rfl
  have hfresh : ∀ i, w.mem.next + 6 ≤ (values i).ptr := fun i =>
    hstart ▸ (h.fresh i _ (hvalues i)).1
  have hne : ∀ i j, i ≠ j → (values i).ptr ≠ (values j).ptr := fun i j hij =>
    h.distinct i j _ _ hij (hvalues i) (hvalues j)
  obtain ⟨mem', hfree⟩ := blocks_freed mem hkey hfresh hne
  refine ⟨mem', ?_⟩
  have hall : ![values 0, values 1, values 2, values 3] = values := by
    funext i
    match i with | 0 | 1 | 2 | 3 => rfl
  unfold use_params value_of
  rw [hvalues 0, hvalues 1, hvalues 2, hvalues 3]
  dsimp only [bind, Except.bind]
  rw [hall, hfree]
  rfl

/-- Each handler does what it has to do exactly when the answer has the four keys. -/
theorem handled_iff (hkeys : ∀ i j, i ≠ j → keys_of id_key i ≠ keys_of id_key j) :
    Handled (add_result id_key) id_key w option ↔ Complete id_key option := by
  obtain ⟨params, mem, start, hstart, hfilled, hcall⟩ := add_result_fills hkeys w option
  have hlast : ∀ i, last (keys_of id_key i) (key_value_pairs option) =
      (params i).value.map CText.text := fun i => (hfilled.value i).symm
  have hcomplete : Complete id_key option ↔ ∀ i, ((params i).value).isSome = true := by
    refine forall_congr' fun i => ?_
    rw [← last_isSome, hlast i, Option.isSome_map]
  rcases use_params_cases params w w.mem.next
      { mem with deleted := (w.mem.next + 5) :: w.mem.deleted } with
    ⟨values, hvalues⟩ | ⟨⟨i, hnone⟩, herr⟩
  · obtain ⟨mem', hok⟩ := use_params_set hvalues hstart hfilled
    have htext : ∀ i, last (keys_of id_key i) (key_value_pairs option) =
        some (values i).text := fun i => by rw [hlast i, hvalues i]; rfl
    refine iff_of_true ?_ (hcomplete.mpr fun i => by rw [hvalues i]; rfl)
    exact ⟨_, _, _, _, mem', htext 0, htext 1, htext 2, htext 3, hcall.trans hok⟩
  · refine iff_of_false ?_ fun h => ?_
    · rintro ⟨_, _, _, _, mem', -, -, -, -, hok⟩
      rw [hcall, herr] at hok
      cases hok
    · have hsome := hcomplete.mp h i
      rw [hnone] at hsome
      cases hsome

end

/-- The three handlers read and free only what was set, free nothing twice and call back with
the last values exactly when all four keys stand in the answer. -/
theorem an_answer_is_handled_iff_it_has_the_four_keys (w : Waiting) (option : String) :
    (Handled add_source_result "sid" w option ↔ Complete "sid" option) ∧
      (Handled add_stream_result "streamid" w option ↔ Complete "streamid" option) ∧
      (Handled add_sink_result "sinkid" w option ↔ Complete "sinkid" option) :=
  ⟨handled_iff (by decide), handled_iff (by decide), handled_iff (by decide)⟩

/-- A command whose data is the only block of the client. -/
def first_command : Waiting where
  mem := { next := 1, deleted := [] }
  data := 0
  cf := { mcu := "mcu@zonekey", cid := 1 }
  allocated _ hp := absurd hp List.not_mem_nil
  data_allocated := Nat.zero_lt_one
  data_live := List.not_mem_nil

/-- An answer without ports: the handler reads a pointer that was never set. -/
theorem an_answer_without_ports_reads_an_unset_pointer :
    add_sink_result first_command "ok" "sinkid=1&server_ip=10.0.0.1" = .error .uninitialised ∧
      ¬ Handled add_sink_result "sinkid" first_command "sinkid=1&server_ip=10.0.0.1" := by
  have herr : add_sink_result first_command "ok" "sinkid=1&server_ip=10.0.0.1" =
      .error .uninitialised := by rfl
  refine ⟨herr, ?_⟩
  rintro ⟨_, _, _, _, mem, -, -, -, -, hok⟩
  rw [herr] at hok
  cases hok

/-- A repeated key and a key that no handler asks for do no harm. -/
example : (add_sink_result first_command "ok"
    "sinkid=1&server_ip=10.0.0.1&x=y&server_rtp_port=7&sinkid=3&server_rtcp_port=8").map
      (fun r => r.1.1.map fun e => (e.sid, e.server_ip, e.rtp_port, e.rtcp_port)) =
    .ok (some (3, "10.0.0.1", 7, 8)) := by rfl

end zonekey_mcu.command_answers
