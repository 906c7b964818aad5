-- The key-value file of the server. `save` writes a session file, and each load reads the base
-- file first and then the session file, line by line.
import ZonekeyMcu.Options

open zonekey_mcu.options

namespace zonekey_mcu.kv_config

/-- The bytes of a file or of a buffer. -/
abbrev Text := List Char

def NUL : Char := Char.ofNat 0

/-! ## A file that is read -/

structure FILE where
  rest : Text
  eof : Bool

/-- At most `n` bytes, up to the end of the line or of the file, and the file behind them. -/
def read_line : Nat → Text → Text × FILE
  | 0, rest => ([], { rest := rest, eof := false })
  | _ + 1, [] => ([], { rest := [], eof := true })
  | n + 1, c :: rest =>
    if c = '\n' then ([c], { rest := rest, eof := false })
    else
      let (line, fp) := read_line n rest
      (c :: line, fp)

/-- `fgets` leaves room for the final 0. It gives a null pointer at the end of the file. -/
def fgets (size : Nat) (fp : FILE) : Option Text × FILE :=
  let (line, fp) := read_line (size - 1) fp.rest
  (if line = [] then none else some line, fp)

/-- A string ends at its first 0. -/
def c_str (s : Text) : Text := s.takeWhile fun c => decide (c ≠ NUL)

/-- A null pointer is read, too. -/
def trim : Option Text → Except Fault Text
  | none => .error .outOfBounds
  | some str =>
    let str := (c_str str).dropWhile is_space
    .ok (str.reverse.dropWhile is_space).reverse

/-! ## The configuration -/

/-- A trimmed line. `value` is the place of the `=`, because `eqv++` gives the old `eqv`. -/
def load_line (kvs : KVS) (p : Text) : KVS :=
  if p.head? = none ∨ p.head? = some '#' then kvs
  else match p.idxOf? '=' with
    | none => kvs
    | some eqv =>
      let p := p.set eqv NUL
      let value := eqv
      if (c_str p).head? = none then kvs
      else KVS.set (String.ofList (c_str p)) (String.ofList (c_str (p.drop value))) kvs

/-- The loop of `load_from_file`, for at most `fuel` turns. -/
def load_lines : Nat → FILE → KVS → Except Fault KVS
  | 0, _, _ => .error .neverReturns
  | fuel + 1, fp, kvs =>
    if fp.eof then .ok kvs
    else
      let (p, fp) := fgets 1024 fp
      match trim p with
      | .error e => .error e
      | .ok p => load_lines fuel fp (load_line kvs p)

/-- `none` is a file that cannot be opened. -/
def load_from_file (file : Option Text) (kvs : KVS) : Except Fault KVS :=
  match file with
  | none => .ok kvs
  | some text => load_lines (text.length + 1) { rest := text, eof := false } kvs

/-- The text that `save_to` writes. -/
def saved (kvs : KVS) : Text :=
  kvs.flatMap fun kv => c_str kv.1.toList ++ '=' :: c_str kv.2.toList ++ ['\n']

/-- The two files, and whether the session file can be opened for each purpose. -/
structure Files where
  base : Option Text
  session : Option Text
  session_r : Bool
  session_w : Bool

def save (fs : Files) (kvs : KVS) : Files :=
  if fs.session_w then { fs with session := some (saved kvs) } else fs

/-- The constructor does the same. -/
def reload (fs : Files) : Except Fault KVS :=
  match load_from_file fs.base [] with
  | .error e => .error e
  | .ok kvs => load_from_file (if fs.session_r then fs.session else none) kvs

/-- `kvs_.erase(key)`. -/
def kvs_erase (kvs : KVS) (key : String) : KVS := kvs.filter fun kv => decide (kv.1 ≠ key)

inductive Op
  | set (key value : String)
  | del (key : String)
  deriving DecidableEq, Repr

def call (kvs : KVS) : Op → KVS
  | .set key value => KVS.set key value kvs
  | .del key => if get_param_value kvs key = none then kvs else kvs_erase kvs key

/-! ## The property -/

/-- The same value, or none, for each key. -/
def Same (a b : KVS) : Prop := ∀ key, get_param_value a key = get_param_value b key

/-- A save and a reload after the calls give back the map. -/
def RoundTrip (fs : Files) (kvs : KVS) : Prop :=
  ∃ kvs', reload (save fs kvs) = .ok kvs' ∧ Same kvs' kvs

/-- Trimmed, and on one line. -/
def Plain (s : String) : Prop :=
  trim (some s.toList) = .ok s.toList ∧ '\n' ∉ s.toList

/-- What a line of the file can hold. -/
def Op.Fits : Op → Prop
  | .set key value => Plain key ∧ Plain value ∧ key ≠ "" ∧ '=' ∉ key.toList ∧
      key.toList.head? ≠ some '#' ∧ key.length + value.length + 2 < 1024
  | .del key => Plain key

/-! ## The turns of the loop -/

section

variable {fuel : Nat} {fp : FILE} {kvs kvs' : KVS}

theorem read_line_length (n : Nat) (text : Text) :
    (read_line n text).1.length + (read_line n text).2.rest.length = text.length := by
  induction n generalizing text with
  | zero => simp [read_line]
  | succ n ih =>
    cases text with
    | nil => rfl
    | cons c rest =>
      unfold read_line
      split
      · simp [Nat.add_comm]
      · have := ih rest
        simp only [List.length_cons]
        omega

theorem read_line_ne (n : Nat) {text : Text} (hne : text ≠ []) :
    (read_line (n + 1) text).1 ≠ [] := by
  cases text with
  | nil => exact absurd rfl hne
  | cons c rest =>
    unfold read_line
    split
    · exact List.cons_ne_nil _ _
    · exact List.cons_ne_nil _ _

/-- At the end of the file, `trim` reads the null pointer of `fgets`. -/
theorem turn_end (fuel : Nat) (kvs : KVS) :
    load_lines (fuel + 1) { rest := [], eof := false } kvs = .error .outOfBounds := rfl

/-- Before it, a turn reads some line. -/
theorem turn (fuel : Nat) (kvs : KVS) {text : Text} (hne : text ≠ []) :
    ∃ p, load_lines (fuel + 1) { rest := text, eof := false } kvs =
      load_lines fuel (read_line 1023 text).2 (load_line kvs p) := by
  refine ⟨(((c_str (read_line 1023 text).1).dropWhile is_space).reverse.dropWhile
    is_space).reverse, ?_⟩
  simp only [load_lines, fgets, Nat.reduceSub, if_neg (read_line_ne 1022 hne), trim,
    Bool.false_eq_true, if_false]

theorem turn_shorter {text : Text} (hne : text ≠ []) :
    (read_line 1023 text).2.rest.length < text.length := by
  have hlen := read_line_length 1023 text
  have hpos : 0 < (read_line 1023 text).1.length := List.length_pos_iff.mpr (read_line_ne 1022 hne)
  omega

/-- The loop ends. -/
theorem load_lines_ends (hfuel : fp.rest.length < fuel) :
    load_lines fuel fp kvs ≠ .error .neverReturns := by
  induction fuel generalizing fp kvs with
  | zero => exact absurd hfuel (Nat.not_lt_zero _)
  | succ fuel ih =>
    obtain ⟨text, eof⟩ := fp
    cases eof with
    | true => simp [load_lines]
    | false =>
      by_cases hne : text = []
      · subst hne
        rw [turn_end]
        simp
      · obtain ⟨p, hturn⟩ := turn fuel kvs hne
        rw [hturn]
        exact ih (Nat.lt_of_lt_of_le (turn_shorter hne) (Nat.le_of_lt_succ hfuel))

theorem load_from_file_ends (file : Option Text) (kvs : KVS) :
    load_from_file file kvs ≠ .error .neverReturns := by
  cases file with
  | none => simp [load_from_file]
  | some text => exact load_lines_ends (Nat.lt_succ_self _)

/-- What each line keeps, a load keeps. -/
theorem load_lines_keeps {I : KVS → Prop} (hline : ∀ kvs p, I kvs → I (load_line kvs p))
    (h : I kvs) (hload : load_lines fuel fp kvs = .ok kvs') : I kvs' := by
  induction fuel generalizing fp kvs with
  | zero => cases hload
  | succ fuel ih =>
    obtain ⟨text, eof⟩ := fp
    cases eof with
    | true =>
      cases hload
      exact h
    | false =>
      by_cases hne : text = []
      · subst hne
        cases hload
      · obtain ⟨p, hturn⟩ := turn fuel kvs hne
        rw [hturn] at hload
        exact ih (hline kvs p h) hload

theorem load_from_file_keeps {I : KVS → Prop} (hline : ∀ kvs p, I kvs → I (load_line kvs p))
    {file : Option Text} (h : I kvs) (hload : load_from_file file kvs = .ok kvs') : I kvs' := by
  cases file with
  | none =>
    cases hload
    exact h
  | some text => exact load_lines_keeps hline h hload

/-! ## A file whose last line ends -/

/-- Each line ends with a newline. -/
def Ended (text : Text) : Prop := text = [] ∨ text.getLast? = some '\n'

theorem Ended.tail {c : Char} {rest : Text} (h : Ended (c :: rest)) : Ended rest := by
  rcases h with h | h
  · cases h
  · cases rest with
    | nil => exact .inl rfl
    | cons d rest => exact .inr (by rwa [List.getLast?_cons_cons] at h)

theorem Ended.rest_ne {c : Char} {rest : Text} (h : Ended (c :: rest)) (hc : c ≠ '\n') :
    rest ≠ [] := by
  rintro rfl
  rcases h with h | h
  · cases h
  · exact hc (Option.some.inj h)

/-- The read of a line does not come to the end of such a file. -/
theorem read_line_ended (n : Nat) (text : Text) (h : Ended text) (hne : text ≠ []) :
    (read_line n text).2.eof = false ∧ Ended (read_line n text).2.rest := by
  induction n generalizing text with
  | zero => exact ⟨rfl, h⟩
  | succ n ih =>
    cases text with
    | nil => exact absurd rfl hne
    | cons c rest =>
      unfold read_line
      split
      · exact ⟨rfl, h.tail⟩
      · rename_i hc
        exact ih rest h.tail (h.rest_ne hc)

/-- So the loop comes back once more, behind the last line. -/
theorem load_lines_ended {text : Text} (h : Ended text) (hfuel : text.length < fuel) :
    load_lines fuel { rest := text, eof := false } kvs = .error .outOfBounds := by
  induction fuel generalizing text kvs with
  | zero => exact absurd hfuel (Nat.not_lt_zero _)
  | succ fuel ih =>
    by_cases hne : text = []
    · subst hne
      exact turn_end fuel kvs
    · obtain ⟨p, hturn⟩ := turn fuel kvs hne
      obtain ⟨heof, hrest⟩ := read_line_ended 1023 text h hne
      rw [hturn, show (read_line 1023 text).2 =
        { rest := (read_line 1023 text).2.rest, eof := false } from by rw [← heof]]
      exact ih hrest (Nat.lt_of_lt_of_le (turn_shorter hne) (Nat.le_of_lt_succ hfuel))

theorem saved_ended (kvs : KVS) : Ended (saved kvs) := by
  rcases List.eq_nil_or_concat kvs with rfl | ⟨kvs, kv, rfl⟩
  · exact .inl rfl
  · have heq : saved (kvs.concat kv) =
        (saved kvs ++ (c_str kv.1.toList ++ '=' :: c_str kv.2.toList)) ++ ['\n'] := by
      simp [saved]
    exact .inr (by rw [heq, List.getLast?_concat])

/-- No load gets through a file that `save_to` wrote. -/
theorem load_saved (kvs m : KVS) : load_from_file (some (saved m)) kvs = .error .outOfBounds :=
  load_lines_ended (saved_ended m) (Nat.lt_succ_self _)

/-! ## What a load makes of the map -/

/-- The string at the place of the `=`, which a 0 was written to. -/
theorem value_empty {p : Text} {eqv : Nat} (heqv : p.idxOf? '=' = some eqv) :
    c_str ((p.set eqv NUL).drop eqv) = [] := by
  obtain ⟨hlt, -⟩ := List.idxOf?_eq_some_iff.mp heqv
  have hlt' : eqv < (p.set eqv NUL).length := by rwa [List.length_set]
  rw [List.drop_eq_getElem_cons hlt', List.getElem_set_self]
  rfl

/-- A line sets at most one key, to the empty value. -/
theorem load_line_cases (kvs : KVS) (p : Text) :
    load_line kvs p = kvs ∨ ∃ key, load_line kvs p = KVS.set key "" kvs := by
  unfold load_line
  split
  · exact .inl rfl
  · cases heqv : p.idxOf? '=' with
    | none => exact .inl rfl
    | some eqv =>
      dsimp only
      split
      · exact .inl rfl
      · exact .inr ⟨_, by rw [value_empty heqv]⟩

/-- What each line keeps, the two loads of a reload keep. -/
theorem reload_keeps {I : KVS → Prop} (hline : ∀ kvs p, I kvs → I (load_line kvs p)) {fs : Files}
    (h : I []) (hload : reload fs = .ok kvs) :
    ∃ base, load_from_file fs.base [] = .ok base ∧ I base ∧ I kvs := by
  unfold reload at hload
  cases hbase : load_from_file fs.base [] with
  | error e =>
    rw [hbase] at hload
    cases hload
  | ok base =>
    rw [hbase] at hload
    have hI := load_from_file_keeps hline h hbase
    exact ⟨base, rfl, hI, load_from_file_keeps hline hI hload⟩

/-- Every value of a configuration that was loaded is empty. -/
theorem loaded_values_are_empty {fs : Files} (hload : reload fs = .ok kvs) {key value : String}
    (hget : get_param_value kvs key = some value) : value = "" := by
  have hline : ∀ kvs p, (∀ key value, get_param_value kvs key = some value → value = "") →
      ∀ key value, get_param_value (load_line kvs p) key = some value → value = "" := by
    intro kvs p h key value hget
    rcases load_line_cases kvs p with heq | ⟨key', heq⟩
    · exact h key value (heq ▸ hget)
    · rw [heq] at hget
      by_cases hkey : key = key'
      · rw [hkey, get_set_self] at hget
        exact (Option.some.inj hget).symm
      · rw [get_set_ne _ hkey] at hget
        exact h key value hget
  obtain ⟨-, -, -, h⟩ := reload_keeps hline (fun _ _ hnone => by cases hnone) hload
  exact h key value hget

/-- A key of the base file comes back with each load, whatever the session file holds. -/
theorem base_keys_come_back {fs : Files} (hload : reload fs = .ok kvs)
    (hbase : load_from_file fs.base [] = .ok kvs') {key : String}
    (hkey : get_param_value kvs' key ≠ none) : get_param_value kvs key ≠ none := by
  have hline : ∀ kvs p, get_param_value kvs key ≠ none →
      get_param_value (load_line kvs p) key ≠ none := by
    intro kvs p h
    rcases load_line_cases kvs p with heq | ⟨key', heq⟩
    · rwa [heq]
    · rw [heq]
      by_cases hk : key = key'
      · rw [hk, get_set_self]
        exact Option.some_ne_none _
      · rwa [get_set_ne _ hk]
  unfold reload at hload
  rw [hbase] at hload
  exact load_from_file_keeps hline hkey hload

/-! ## A save and a reload -/

theorem reload_written {fs : Files} (hw : fs.session_w = true) (hr : fs.session_r = true)
    (hload : reload fs = .ok kvs) (m : KVS) : reload (save fs m) = .error .outOfBounds := by
  obtain ⟨base, hbase, -, -⟩ :=
    reload_keeps (I := fun _ => True) (fun _ _ _ => trivial) trivial hload
  simp only [save, hw, if_true, reload, hbase, hr]
  exact load_saved base m

/-- A save that fails, or that cannot be read back, changes nothing for the next load. -/
theorem reload_unread {fs : Files} (h : ¬ (fs.session_w = true ∧ fs.session_r = true)) (m : KVS) :
    reload (save fs m) = reload fs := by
  cases hw : fs.session_w with
  | false => simp [save, hw]
  | true =>
    have hr : fs.session_r = false := by
      cases hr : fs.session_r with
      | false => rfl
      | true => exact absurd ⟨hw, hr⟩ h
    simp [save, hw, reload, hr]

end

/-! ## The law -/

/-- A save and a reload give back the map exactly when the session file cannot be both written
and read, and the calls left the map as it was loaded. -/
theorem a_saved_map_comes_back_only_from_a_file_that_is_not_read (fs : Files) (loaded : KVS)
    (hload : reload fs = .ok loaded) (ops : List Op) :
    RoundTrip fs (ops.foldl call loaded) ↔
      ¬ (fs.session_w = true ∧ fs.session_r = true) ∧ Same loaded (ops.foldl call loaded) := by
  by_cases hwr : fs.session_w = true ∧ fs.session_r = true
  · constructor
    · rintro ⟨kvs', hreload, -⟩
      rw [reload_written hwr.1 hwr.2 hload] at hreload
      cases hreload
    · exact fun h => absurd hwr h.1
  · constructor
    · rintro ⟨kvs', hreload, hsame⟩
      rw [reload_unread hwr, hload] at hreload
      cases hreload
      exact ⟨hwr, hsame⟩
    · rintro ⟨-, hsame⟩
      exact ⟨loaded, (reload_unread hwr _).trans hload, hsame⟩

/-- A base file with one line, which does not end. -/
def one_line : Files :=
  { base := some "volume=5".toList, session := none, session_r := true, session_w := true }

/-- A key that comes and goes, and one that gets its old value back. -/
def undone : List Op :=
  [.set "name" "room", .set "volume" "7", .del "name", .set "volume" "", .del "desc"]

/-- The calls on the same files, with a session file that cannot be written. -/
theorem a_saved_map_comes_back_only_from_a_file_that_is_not_read_example :
    RoundTrip { one_line with session_w := false } (undone.foldl call [("volume", "")]) ∧
      ¬ RoundTrip { one_line with session_w := false }
        ((undone ++ [Op.set "name" "hall"]).foldl call [("volume", "")]) := by
  have hload : reload { one_line with session_w := false } = .ok [("volume", "")] := by
    decide +kernel
  have hundone : undone.foldl call [("volume", "")] = [("volume", "")] := by decide +kernel
  have hname : get_param_value ((undone ++ [Op.set "name" "hall"]).foldl call [("volume", "")])
      "name" ≠ get_param_value [("volume", "")] "name" := by decide +kernel
  constructor
  · refine (a_saved_map_comes_back_only_from_a_file_that_is_not_read _ _ hload undone).mpr ⟨?_, ?_⟩
    · exact fun h => Bool.false_ne_true h.1
    · rw [hundone]
      exact fun _ => rfl
  · intro hback
    have hsame := ((a_saved_map_comes_back_only_from_a_file_that_is_not_read _ _ hload
      (undone ++ [Op.set "name" "hall"])).mp hback).2
    exact hname (hsame "name").symm

/-- The process ends in the reload of what was saved. -/
theorem a_reload_after_a_save_reads_a_null_pointer :
    reload one_line = .ok [("volume", "")] ∧
      reload (save one_line [("name", "room"), ("volume", "")]) = .error .outOfBounds ∧
      ¬ ∀ (fs : Files) (loaded : KVS) (ops : List Op), reload fs = .ok loaded →
        (∀ op ∈ ops, op.Fits) → RoundTrip fs (ops.foldl call loaded) := by
  have hload : reload one_line = .ok [("volume", "")] := by decide +kernel
  refine ⟨hload, reload_written rfl rfl hload _, fun hall => ?_⟩
  have hfits : (Op.set "name" "room").Fits := by
    refine ⟨⟨by decide +kernel, by decide +kernel⟩, ⟨by decide +kernel, by decide +kernel⟩, ?_⟩
    decide +kernel
  obtain ⟨kvs', hreload, -⟩ := hall one_line _ [.set "name" "room"] hload (by simpa using hfits)
  rw [reload_written rfl rfl hload] at hreload
  cases hreload

end zonekey_mcu.kv_config
