-- What a load of the key-value file makes of any text. The loop reads on at the end of the file,
-- unless the last line stops it, and a line that sets a key sets it to nothing.
import ZonekeyMcu.KVConfig
import ZonekeyMcu.Lib.LastWins
import Mathlib.Data.List.TakeWhile

open last_wins zonekey_mcu.options

namespace zonekey_mcu.kv_config

/-! ## The lines of a text -/

/-- What a file of the server holds: any bytes but NUL. -/
structure Content where
  text : Text
  no_nul : NUL ∉ text

/-- The lines, with the text behind the last newline as the last one. -/
def lines (text : Text) : List Text := text.splitOn '\n'

def last_line (text : Text) : Text := (lines text).getLastD []

/-- The line without the space at its ends. -/
def strip (line : Text) : Text := ((line.dropWhile is_space).reverse.dropWhile is_space).reverse

/-- The key before the first `=` of a line, and the text after it. A comment, and a line without
a `=` or a key, define nothing. -/
def definition_of (line : Text) : Option (String × String) :=
  let p := strip line
  if p.head? = some '#' ∨ '=' ∉ p ∨ p.takeWhile (· ≠ '=') = [] then none
  else some (String.ofList (p.takeWhile (· ≠ '=')), String.ofList (p.dropWhile (· ≠ '=')).tail)

/-- The definitions in the lines of less than 1024 bytes. -/
def definitions (text : Text) : List (String × String) :=
  ((lines text).filter fun line => line.length < 1024).filterMap definition_of

/-- The load ends, and keeps for each key the last of its definitions. -/
def Loads (text : Text) (kvs : KVS) : Prop :=
  ∃ kvs', load_from_file (some text) kvs = .ok kvs' ∧
    ∀ key value, last key (definitions text) = some value →
      get_param_value kvs' key = some value

section

variable {line rest front text : Text} {kvs kvs' : KVS} {n fuel : Nat}

theorem lines_cons (h : '\n' ∉ line) (rest : Text) :
    lines (line ++ '\n' :: rest) = line :: lines rest :=
  List.splitOn_append_cons_self_of_not_mem h rest

theorem lines_one (h : '\n' ∉ line) : lines line = [line] := List.splitOn_eq_singleton h

theorem lines_ne_nil (text : Text) : lines text ≠ [] := List.splitOn_ne_nil _ _

theorem last_line_cons (h : '\n' ∉ line) (rest : Text) :
    last_line (line ++ '\n' :: rest) = last_line rest := by
  unfold last_line
  rw [lines_cons h]
  cases hrest : lines rest with
  | nil => exact absurd hrest (lines_ne_nil rest)
  | cons first later => rfl

theorem last_line_one (h : '\n' ∉ line) : last_line line = line := by
  rw [last_line, lines_one h]
  rfl

/-- A text behind the front of its first line. -/
theorem first_line_cases (text : Text) :
    '\n' ∉ text ∨ ∃ line rest, '\n' ∉ line ∧ text = line ++ '\n' :: rest := by
  by_cases h : '\n' ∈ text
  · obtain ⟨line, rest, heq, hline⟩ := List.eq_append_cons_of_mem h
    exact .inr ⟨line, rest, hline, heq⟩
  · exact .inl h

/-- A front without a newline stands before the first line of the rest. -/
theorem lines_append (hfront : '\n' ∉ front) (rest : Text) :
    lines (front ++ rest) = (front ++ (lines rest).headD []) :: (lines rest).tail := by
  rcases first_line_cases rest with hnone | ⟨line, later, hline, rfl⟩
  · have hall : '\n' ∉ front ++ rest := by
      rw [List.mem_append, not_or]
      exact ⟨hfront, hnone⟩
    rw [lines_one hall, lines_one hnone]
    rfl
  · have hall : '\n' ∉ front ++ line := by
      rw [List.mem_append, not_or]
      exact ⟨hfront, hline⟩
    rw [← List.append_assoc, lines_cons hall, lines_cons hline]
    rfl

/-! ## The reads -/

theorem read_line_append (hfront : '\n' ∉ front) (n : Nat) (rest : Text) :
    read_line (front.length + n) (front ++ rest) =
      (front ++ (read_line n rest).1, (read_line n rest).2) := by
  induction front with
  | nil => rw [List.length_nil, Nat.zero_add, List.nil_append, List.nil_append]
  | cons c front ih =>
    rw [List.mem_cons, not_or] at hfront
    rw [List.length_cons, Nat.add_right_comm, List.cons_append, read_line,
      if_neg (Ne.symm hfront.1), ih hfront.2]
    rfl

theorem read_line_ends (hline : '\n' ∉ line) (hn : line.length < n) (rest : Text) :
    read_line n (line ++ '\n' :: rest) = (line ++ ['\n'], { rest := rest, eof := false }) := by
  obtain ⟨room, rfl⟩ := Nat.exists_eq_add_of_lt hn
  rw [Nat.add_assoc, read_line_append hline, read_line, if_pos rfl]

theorem read_line_last (hline : '\n' ∉ line) (hn : line.length < n) :
    read_line n line = (line, { rest := [], eof := true }) := by
  obtain ⟨room, rfl⟩ := Nat.exists_eq_add_of_lt hn
  have hread := read_line_append hline (room + 1) []
  rwa [List.append_nil, ← Nat.add_assoc, read_line, List.append_nil] at hread

/-- A read that the buffer ends does not come to the end of the file. -/
theorem read_line_full (hfront : '\n' ∉ front) (hn : front.length = n) (rest : Text) :
    read_line n (front ++ rest) = (front, { rest := rest, eof := false }) := by
  have hread := read_line_append hfront 0 rest
  rwa [Nat.add_zero, hn, read_line, List.append_nil] at hread

/-- A text is read in whole lines and in pieces of 1023 bytes. -/
theorem read_induction {P : Text → Prop}
    (last : ∀ line : Text, '\n' ∉ line → line.length < 1023 → P line)
    (whole : ∀ line rest : Text, '\n' ∉ line → line.length < 1023 → P rest →
      P (line ++ '\n' :: rest))
    (piece : ∀ front rest : Text, '\n' ∉ front → front.length = 1023 → P rest → P (front ++ rest))
    (text : Text) : P text := by
  induction hlen : text.length using Nat.strongRecOn generalizing text with
  | _ len ih =>
    subst hlen
    have hpiece : ∀ line rest : Text, text = line ++ rest → '\n' ∉ line → ¬ line.length < 1023 →
        P text := by
      intro line rest heq hline hlong
      have hsplit : text = line.take 1023 ++ (line.drop 1023 ++ rest) := by
        rw [heq, ← List.append_assoc, List.take_append_drop]
      have htake : (line.take 1023).length = 1023 := by
        rw [List.length_take]
        omega
      have hshort : (line.drop 1023 ++ rest).length < text.length := by
        have := congrArg List.length hsplit
        rw [List.length_append, htake] at this
        omega
      rw [hsplit]
      exact piece _ _ (fun h => hline (List.mem_of_mem_take h)) htake
        (ih _ hshort _ rfl)
    rcases first_line_cases text with hnone | ⟨line, rest, hline, heq⟩
    · by_cases hshort : text.length < 1023
      · exact last text hnone hshort
      · exact hpiece text [] (List.append_nil _).symm hnone hshort
    · by_cases hshort : line.length < 1023
      · rw [heq]
        refine whole line rest hline hshort (ih rest.length ?_ rest rfl)
        rw [heq, List.length_append, List.length_cons]
        omega
      · exact hpiece line _ heq hline hshort

/-! ## A turn of the loop -/

theorem c_str_self {s : Text} (h : NUL ∉ s) : c_str s = s :=
  List.takeWhile_eq_self_iff.mpr fun _ hc => decide_eq_true fun heq => h (heq ▸ hc)

theorem trim_strip {p : Text} (h : NUL ∉ p) : trim (some p) = .ok (strip p) := by
  rw [trim, c_str_self h]
  rfl

/-- The newline goes away with the space. -/
theorem strip_newline (line : Text) : strip (line ++ ['\n']) = strip line := by
  have hspace : is_space '\n' = true := rfl
  unfold strip
  rw [List.dropWhile_append]
  cases hdrop : line.dropWhile is_space with
  | nil => rfl
  | cons c cs =>
    simp only [List.isEmpty_cons, Bool.false_eq_true, if_false, List.reverse_append,
      List.reverse_singleton, List.singleton_append, List.dropWhile_cons, hspace, if_true]

theorem turn_reads {p : Text} {fp : FILE} (hread : read_line 1023 text = (p, fp)) (hne : p ≠ [])
    (hp : NUL ∉ p) (fuel : Nat) (kvs : KVS) :
    load_lines (fuel + 1) { rest := text, eof := false } kvs =
      load_lines fuel fp (load_line kvs (strip p)) := by
  simp only [load_lines, fgets, Nat.reduceSub, hread, if_neg hne, trim_strip hp,
    Bool.false_eq_true, if_false]

theorem turn_whole (hline : '\n' ∉ line) (hshort : line.length < 1023) (hnul : NUL ∉ line)
    (rest : Text) (fuel : Nat) (kvs : KVS) :
    load_lines (fuel + 1) { rest := line ++ '\n' :: rest, eof := false } kvs =
      load_lines fuel { rest := rest, eof := false } (load_line kvs (strip line)) := by
  have hp : NUL ∉ line ++ ['\n'] := by
    rw [List.mem_append, not_or]
    exact ⟨hnul, by decide⟩
  rw [turn_reads (read_line_ends hline hshort rest) (List.append_ne_nil_of_right_ne_nil _
    (List.cons_ne_nil _ _)) hp, strip_newline]

theorem turn_piece (hfront : '\n' ∉ front) (hfull : front.length = 1023) (hnul : NUL ∉ front)
    (rest : Text) (fuel : Nat) (kvs : KVS) :
    load_lines (fuel + 1) { rest := front ++ rest, eof := false } kvs =
      load_lines fuel { rest := rest, eof := false } (load_line kvs (strip front)) := by
  have hne : front ≠ [] := by
    rintro rfl
    cases hfull
  exact turn_reads (read_line_full hfront hfull rest) hne hnul fuel kvs

/-- The end of the file is seen in the turn that reads the last line, if it is not empty. -/
theorem turn_last (hline : '\n' ∉ line) (hshort : line.length < 1023) (hne : line ≠ [])
    (hnul : NUL ∉ line) (fuel : Nat) (kvs : KVS) :
    load_lines (fuel + 2) { rest := line, eof := false } kvs =
      .ok (load_line kvs (strip line)) := by
  rw [turn_reads (read_line_last hline hshort) hne hnul]
  rfl

/-! ## When the loop ends -/

theorem last_line_piece (hfront : '\n' ∉ front) (hfull : front.length = 1023) (rest : Text) :
    (last_line (front ++ rest)).length % 1023 = (last_line rest).length % 1023 := by
  unfold last_line
  rw [lines_append hfront]
  cases hrest : lines rest with
  | nil => exact absurd hrest (lines_ne_nil rest)
  | cons first later =>
    cases later with
    | nil =>
      change (front ++ first).length % 1023 = first.length % 1023
      rw [List.length_append, hfull, Nat.add_mod_left]
    | cons second later => rfl

/-- The load ends exactly when the last line has bytes that the last read comes to the end of. -/
theorem load_lines_ok_iff (text : Text) (hnul : NUL ∉ text) (hfuel : text.length < fuel)
    (kvs : KVS) :
    (∃ kvs', load_lines fuel { rest := text, eof := false } kvs = .ok kvs') ↔
      (last_line text).length % 1023 ≠ 0 := by
  induction text using read_induction generalizing fuel kvs with
  | last line hline hshort =>
    rw [last_line_one hline]
    by_cases hne : line = []
    · subst hne
      obtain ⟨fuel, rfl⟩ := Nat.exists_eq_succ_of_ne_zero (Nat.ne_of_gt hfuel)
      rw [turn_end]
      exact iff_of_false nofun (fun h => h rfl)
    · have hpos := List.length_pos_iff.mpr hne
      obtain ⟨fuel, rfl⟩ : ∃ f, fuel = f + 2 := Nat.exists_eq_add_of_le' (by omega)
      rw [turn_last hline hshort hne hnul]
      exact iff_of_true ⟨_, rfl⟩ (by omega)
  | whole line rest hline hshort ih =>
    rw [List.mem_append, List.mem_cons, not_or, not_or] at hnul
    rw [List.length_append, List.length_cons] at hfuel
    obtain ⟨fuel, rfl⟩ : ∃ f, fuel = f + 1 := Nat.exists_eq_add_of_le' (by omega)
    rw [turn_whole hline hshort hnul.1, last_line_cons hline]
    exact ih hnul.2.2 (by omega) _
  | piece front rest hfront hfull ih =>
    rw [List.mem_append, not_or] at hnul
    rw [List.length_append] at hfuel
    obtain ⟨fuel, rfl⟩ : ∃ f, fuel = f + 1 := Nat.exists_eq_add_of_le' (by omega)
    rw [turn_piece hfront hfull hnul.1, last_line_piece hfront hfull]
    exact ih hnul.2 (by omega) _

/-! ## What a line sets -/

theorem nul_not_in_strip (h : NUL ∉ line) : NUL ∉ strip line := by
  intro hmem
  have hback := (List.dropWhile_suffix is_space).subset (List.mem_reverse.mp hmem)
  exact h ((List.dropWhile_suffix is_space).subset (List.mem_reverse.mp hback))

theorem takeWhile_ne_split {c : Char} (hfront : c ∉ front) (back : Text) :
    (front ++ c :: back).takeWhile (· ≠ c) = front := by
  have hpos : ∀ x ∈ front, decide (x ≠ c) = true := fun x hx =>
    decide_eq_true fun heq => hfront (heq ▸ hx)
  rw [List.takeWhile_append_of_pos hpos]
  simp

theorem idxOf_split {c : Char} (hfront : c ∉ front) (back : Text) :
    (front ++ c :: back).idxOf? c = some front.length := by
  rw [List.idxOf?_eq_some_iff]
  refine ⟨by simp, by simp, fun j hj heq => hfront ?_⟩
  rw [List.getElem_append_left hj] at heq
  exact heq ▸ List.getElem_mem hj

/-- The key stands before the first `=`, and its value is taken where the `=` stood. -/
theorem load_line_split {back : Text} (hkey : front ≠ []) (hfront : '=' ∉ front)
    (hnul : NUL ∉ front) (hcomment : (front ++ '=' :: back).head? ≠ some '#') (kvs : KVS) :
    load_line kvs (front ++ '=' :: back) = KVS.set (String.ofList front) "" kvs := by
  have hhead : ¬ ((front ++ '=' :: back).head? = none ∨
      (front ++ '=' :: back).head? = some '#') := by
    rintro (hnone | hsome)
    · simp at hnone
    · exact hcomment hsome
  have hcstr : c_str ((front ++ '=' :: back).set front.length NUL) = front := by
    rw [List.set_append_right _ _ (Nat.le_refl _), Nat.sub_self, List.set_cons_zero]
    exact takeWhile_ne_split hnul back
  have hne : ¬ (c_str ((front ++ '=' :: back).set front.length NUL)).head? = none := by
    rw [hcstr, List.head?_eq_none_iff]
    exact hkey
  have hidx := idxOf_split hfront back
  unfold load_line
  rw [if_neg hhead, hidx]
  dsimp only
  rw [if_neg hne, hcstr, value_empty hidx]

/-- A line with a definition sets its key to the empty value. -/
theorem load_line_defines {key value : String} (hnul : NUL ∉ line)
    (h : definition_of line = some (key, value)) (kvs : KVS) :
    load_line kvs (strip line) = KVS.set key "" kvs := by
  have hp := nul_not_in_strip hnul
  unfold definition_of at h
  dsimp only at h
  generalize strip line = p at h hp ⊢
  split at h
  · cases h
  · rename_i hdef
    rw [not_or, not_or, not_not] at hdef
    obtain ⟨hcomment, hmem, hkey⟩ := hdef
    cases h
    obtain ⟨front, back, rfl, hfront⟩ := List.eq_append_cons_of_mem hmem
    rw [takeWhile_ne_split hfront back] at hkey ⊢
    exact load_line_split hkey hfront (fun h => hp (List.mem_append_left _ h)) hcomment kvs

/-- The keys that a line of less than 1024 bytes defines have the empty value. -/
def Sets (kvs : KVS) (line : Text) : Prop :=
  ∀ key value, line.length < 1024 → definition_of line = some (key, value) →
    get_param_value kvs key = some ""

theorem load_line_sets (hnul : NUL ∉ line) (kvs : KVS) :
    Sets (load_line kvs (strip line)) line := by
  intro key value _ hdef
  rw [load_line_defines hnul hdef]
  exact get_set_self key "" kvs

/-- No later line takes a key away, or gives it another value. -/
theorem sets_kept (h : Sets kvs line) {fp : FILE} (hload : load_lines fuel fp kvs = .ok kvs') :
    Sets kvs' line := by
  intro key value hlen hdef
  refine load_lines_keeps (I := fun kvs => get_param_value kvs key = some "") ?_
    (h key value hlen hdef) hload
  intro kvs p hget
  rcases load_line_cases kvs p with heq | ⟨key', heq⟩
  · rwa [heq]
  · rw [heq]
    by_cases hkey : key = key'
    · rw [hkey]
      exact get_set_self key' "" kvs
    · rwa [get_set_ne _ hkey]

theorem load_lines_turns {fp : FILE} (hload : load_lines fuel fp kvs = .ok kvs') :
    ∃ f, fuel = f + 1 := by
  cases fuel with
  | zero => cases hload
  | succ f => exact ⟨f, rfl⟩

/-- A load reads each line of less than 1024 bytes as a whole. -/
theorem load_lines_sets (text : Text) (hnul : NUL ∉ text)
    (hload : load_lines fuel { rest := text, eof := false } kvs = .ok kvs') :
    ∀ line ∈ lines text, Sets kvs' line := by
  obtain ⟨fuel, rfl⟩ := load_lines_turns hload
  induction text using read_induction generalizing fuel kvs with
  | last line hline hshort =>
    rw [lines_one hline, List.forall_mem_singleton]
    by_cases hne : line = []
    · subst hne
      rw [turn_end] at hload
      cases hload
    · rw [turn_reads (read_line_last hline hshort) hne hnul] at hload
      exact sets_kept (load_line_sets hnul kvs) hload
  | whole line rest hline hshort ih =>
    rw [List.mem_append, List.mem_cons, not_or, not_or] at hnul
    rw [turn_whole hline hshort hnul.1] at hload
    obtain ⟨fuel, rfl⟩ := load_lines_turns hload
    rw [lines_cons hline, List.forall_mem_cons]
    exact ⟨sets_kept (load_line_sets hnul.1 kvs) hload, ih hnul.2.2 fuel hload⟩
  | piece front rest hfront hfull ih =>
    rw [List.mem_append, not_or] at hnul
    rw [turn_piece hfront hfull hnul.1] at hload
    have hset := sets_kept (load_line_sets hnul.1 kvs) hload
    -- the line that the piece starts is the piece alone, or it is too long
    have hstart : ∀ line : Text, Sets kvs' (front ++ line) := by
      intro line key value hlen hdef
      rw [List.length_append, hfull] at hlen
      have hnil : line = [] := List.length_eq_zero_iff.mp (by omega)
      subst hnil
      rw [List.append_nil] at hdef
      exact hset key value (by omega) hdef
    obtain ⟨fuel, rfl⟩ := load_lines_turns hload
    rw [lines_append hfront, List.forall_mem_cons]
    exact ⟨hstart _, fun line hmem => ih hnul.2 fuel hload line (List.mem_of_mem_tail hmem)⟩

/-- Each key that is defined has the empty value after the load. -/
theorem defined_keys_are_empty (hnul : NUL ∉ text)
    (hload : load_from_file (some text) kvs = .ok kvs') {key value : String}
    (hlast : last key (definitions text) = some value) :
    get_param_value kvs' key = some "" := by
  have hmem : ∃ pair ∈ definitions text, pair.1 = key := last_isSome.mp (by rw [hlast]; rfl)
  obtain ⟨⟨_, value'⟩, hpair, rfl⟩ := hmem
  obtain ⟨line, hline, hdef⟩ := List.mem_filterMap.mp hpair
  obtain ⟨hline, hlen⟩ := List.mem_filter.mp hline
  exact load_lines_sets text hnul hload line hline _ value' (of_decide_eq_true hlen) hdef

end

/-! ## The law -/

/-- A load ends and keeps the last definitions exactly when the last line is not empty and not a
whole number of reads, and no key has a value. -/
theorem a_load_keeps_the_definitions_iff_the_last_line_stops_it_and_no_key_has_a_value
    (file : Content) (kvs : KVS) :
    Loads file.text kvs ↔ (last_line file.text).length % 1023 ≠ 0 ∧
      ∀ key value, last key (definitions file.text) = some value → value = "" := by
  rw [← load_lines_ok_iff file.text file.no_nul (Nat.lt_succ_self _) kvs]
  constructor
  · rintro ⟨kvs', hload, hkeeps⟩
    refine ⟨⟨kvs', hload⟩, fun key value hlast => ?_⟩
    have hempty := defined_keys_are_empty file.no_nul hload hlast
    rw [hkeeps key value hlast] at hempty
    exact Option.some.inj hempty
  · rintro ⟨⟨kvs', hload⟩, hall⟩
    refine ⟨kvs', hload, fun key value hlast => ?_⟩
    rw [hall key value hlast]
    exact defined_keys_are_empty file.no_nul hload hlast

/-- A file whose last line ends, and a file whose only key has a value. -/
theorem a_load_reads_behind_the_file_or_loses_a_value :
    load_from_file (some "volume=5\n".toList) [] = .error .outOfBounds ∧
      load_from_file (some "volume=5".toList) [] = .ok [("volume", "")] ∧
      last "volume" (definitions "volume=5".toList) = some "5" ∧
      ¬ Loads "volume=5\n".toList [] ∧ ¬ Loads "volume=5".toList [] := by
  have hended : load_from_file (some "volume=5\n".toList) [] = .error .outOfBounds := by
    decide +kernel
  have hvalue : load_from_file (some "volume=5".toList) [] = .ok [("volume", "")] := by
    decide +kernel
  have hlast : last "volume" (definitions "volume=5".toList) = some "5" := by decide +kernel
  refine ⟨hended, hvalue, hlast, ?_, ?_⟩
  · rintro ⟨kvs', hload, -⟩
    rw [hended] at hload
    cases hload
  · rintro ⟨kvs', hload, hkeeps⟩
    rw [hvalue] at hload
    cases hload
    exact absurd (hkeeps "volume" "5" hlast) (by decide +kernel)

end zonekey_mcu.kv_config
