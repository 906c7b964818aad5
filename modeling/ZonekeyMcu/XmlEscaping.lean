-- The escaping of an option string before it goes into the body of a message. The result is
-- written into a buffer of five bytes for each byte of the string, and one for the NUL. A byte
-- stands here as the character of that number.
import ZonekeyMcu.XmppCommands

namespace zonekey_mcu.xml_escaping

def NUL : Char := Char.ofNat 0

/-- A buffer from `malloc`. A cell that was not written yet holds nothing. -/
abbrev Buffer := List (Option Char)

def malloc (size : Nat) : Buffer := List.replicate size none

/-- `*p = c`. -/
def store (buf : Buffer) (p : Nat) (c : Char) : Except Fault Buffer :=
  if p < buf.length then .ok (buf.set p (some c)) else .error .outOfBounds

def store_all (buf : Buffer) (p : Nat) : List Char → Except Fault Buffer
  | [] => .ok buf
  | c :: cs => do
    let buf ← store buf p c
    store_all buf (p + 1) cs

/-- The terminator is written too. -/
def strcpy (buf : Buffer) (p : Nat) (source : List Char) : Except Fault Buffer :=
  store_all buf p (source ++ [NUL])

/-- The bytes from a pointer on, read up to the first NUL. -/
def strlen : List Char → Except Fault Nat
  | [] => .error .outOfBounds
  | c :: cs => if c = NUL then .ok 0 else (strlen cs).map (· + 1)

/-! ## The function -/

/-- One turn of the loop: the buffer, and `current_cpy` after it. -/
def change_char (buf : Buffer) (current_cpy : Nat) (c : Char) : Except Fault (Buffer × Nat) :=
  if c = '&' then do
    let buf ← strcpy buf current_cpy "&amp;".toList
    return (buf, current_cpy + 5)
  else if c = '>' then do
    let buf ← strcpy buf current_cpy "&gt;".toList
    return (buf, current_cpy + 4)
  else if c = '<' then do
    let buf ← strcpy buf current_cpy "&lt;".toList
    return (buf, current_cpy + 4)
  else do
    let buf ← store buf current_cpy c
    return (buf, current_cpy + 1)

/-- The `while (*current)`, and the NUL after it. -/
def change_loop (buf : Buffer) (current_cpy : Nat) : List Char → Except Fault Buffer
  | [] => .error .outOfBounds
  | c :: current =>
    if c = NUL then store buf current_cpy NUL
    else do
      let (buf, current_cpy) ← change_char buf current_cpy c
      change_loop buf current_cpy current

/-- The bytes from `str_to_change` on give the buffer at `*result`. -/
def xmpp_ua_change_string (str_to_change : List Char) : Except Fault Buffer := do
  let len ← strlen str_to_change
  change_loop (malloc (len * 5 + 1)) 0 str_to_change

/-- What a reader of the buffer finds before the NUL. It may not read a cell that was never
written. -/
def buffer_text : Buffer → Option (List Char)
  | [] => none
  | none :: _ => none
  | some c :: buf => if c = NUL then some [] else (buffer_text buf).map (c :: ·)

/-! ## The text -/

/-- What stands in the result for a byte of the string. -/
def entity (c : Char) : List Char :=
  if c = '&' then "&amp;".toList
  else if c = '>' then "&gt;".toList
  else if c = '<' then "&lt;".toList
  else [c]

def escaped (s : List Char) : List Char := s.flatMap entity

/-- The entities that the function writes. -/
def emitted : List (List Char) := ["&amp;".toList, "&gt;".toList, "&lt;".toList]

/-- The entities that XML itself defines. -/
def xml_entities : List (List Char × Char) :=
  [("&amp;".toList, '&'), ("&lt;".toList, '<'), ("&gt;".toList, '>'), ("&quot;".toList, '"'),
    ("&apos;".toList, Char.ofNat 39)]

/-- The text without its entities, or nothing if an `&` starts none. The first `n` bytes belong
to the entity before. -/
def xml_unescape : Nat → List Char → Option (List Char)
  | _, [] => some []
  | n + 1, _ :: text => xml_unescape n text
  | 0, c :: text =>
    if c = '&' then
      match xml_entities.find? fun e => e.1.isPrefixOf (c :: text) with
      | some e => (xml_unescape (e.1.length - 1) text).map (e.2 :: ·)
      | none => none
    else (xml_unescape 0 text).map (c :: ·)

section

variable {s : List Char}

theorem escaped_cons (c : Char) (s : List Char) : escaped (c :: s) = entity c ++ escaped s :=
  List.flatMap_cons

/-- The four branches of the loop. -/
theorem entity_cases (c : Char) :
    c = '&' ∧ entity c = "&amp;".toList ∨ c = '>' ∧ entity c = "&gt;".toList ∨
      c = '<' ∧ entity c = "&lt;".toList ∨ (c ≠ '&' ∧ c ≠ '>' ∧ c ≠ '<') ∧ entity c = [c] := by
  by_cases hamp : c = '&'
  · subst hamp
    exact .inl ⟨rfl, rfl⟩
  · by_cases hgt : c = '>'
    · subst hgt
      exact .inr (.inl ⟨rfl, rfl⟩)
    · by_cases hlt : c = '<'
      · subst hlt
        exact .inr (.inr (.inl ⟨rfl, rfl⟩))
      · refine .inr (.inr (.inr ⟨⟨hamp, hgt, hlt⟩, ?_⟩))
        rw [entity, if_neg hamp, if_neg hgt, if_neg hlt]

/-- A byte is replaced by an entity, or stays. -/
theorem entity_emitted_or_plain (c : Char) :
    entity c ∈ emitted ∨ (c ≠ '&' ∧ c ≠ '>' ∧ c ≠ '<') ∧ entity c = [c] := by
  rcases entity_cases c with ⟨-, he⟩ | ⟨-, he⟩ | ⟨-, he⟩ | hplain
  · exact .inl (by rw [he]; decide)
  · exact .inl (by rw [he]; decide)
  · exact .inl (by rw [he]; decide)
  · exact .inr hplain

/-- What holds of the bytes of the entities, and of the bytes that stay. -/
theorem forall_escaped {P : Char → Prop} (hemitted : ∀ e ∈ emitted, ∀ x ∈ e, P x)
    (hplain : ∀ c ∈ s, c ≠ '>' → c ≠ '<' → P c) : ∀ x ∈ escaped s, P x := by
  intro x hx
  obtain ⟨c, hc, hx⟩ := List.mem_flatMap.mp hx
  rcases entity_emitted_or_plain c with hmem | ⟨⟨-, hgt, hlt⟩, he⟩
  · exact hemitted _ hmem x hx
  · rw [he, List.mem_singleton] at hx
    subst hx
    exact hplain x hc hgt hlt

theorem no_raw_bracket (s : List Char) : '<' ∉ escaped s ∧ '>' ∉ escaped s := by
  have hall : ∀ x ∈ escaped s, x ≠ '<' ∧ x ≠ '>' :=
    forall_escaped (by simp [emitted]) fun c _ hgt hlt => ⟨hlt, hgt⟩
  exact ⟨fun h => (hall _ h).1 rfl, fun h => (hall _ h).2 rfl⟩

/-- An `&` stands only at the front of what replaces a byte. -/
theorem entity_of_amp {c : Char} {before after : List Char}
    (h : entity c = before ++ '&' :: after) : before = [] ∧ entity c ∈ emitted := by
  rcases entity_emitted_or_plain c with hmem | ⟨⟨hamp, -⟩, he⟩
  · have hname : ∀ e ∈ emitted, '&' ∉ e.tail := by decide
    refine ⟨?_, hmem⟩
    cases before with
    | nil => rfl
    | cons b before =>
      refine absurd ?_ (hname _ hmem)
      rw [h]
      exact List.mem_append_right before List.mem_cons_self
  · have hmem : '&' ∈ entity c := h ▸ List.mem_append_right before List.mem_cons_self
    rw [he, List.mem_singleton] at hmem
    exact absurd hmem.symm hamp

/-- Every `&` of the result starts an entity that the function wrote. -/
theorem amp_starts_entity (s before after : List Char) (h : escaped s = before ++ '&' :: after) :
    ∃ e ∈ emitted, e <+: '&' :: after := by
  induction s generalizing before with
  | nil => simp [escaped] at h
  | cons c s ih =>
    rw [escaped_cons, List.append_eq_append_iff] at h
    rcases h with ⟨before', -, hs⟩ | ⟨inside, hentity, hafter⟩
    · exact ih before' hs
    · cases inside with
      | nil => exact ih [] hafter.symm
      | cons b inside =>
        obtain ⟨rfl, hafter⟩ := List.cons.inj hafter
        obtain ⟨rfl, hmem⟩ := entity_of_amp hentity
        refine ⟨entity c, hmem, ?_⟩
        rw [hentity, hafter]
        exact List.prefix_append ('&' :: inside) (escaped s)

theorem unescape_entity (c : Char) (text : List Char) :
    xml_unescape 0 (entity c ++ text) = (xml_unescape 0 text).map (c :: ·) := by
  rcases entity_cases c with ⟨rfl, he⟩ | ⟨rfl, he⟩ | ⟨rfl, he⟩ | ⟨⟨hamp, -⟩, he⟩
  · rw [he]
    rfl
  · rw [he]
    rfl
  · rw [he]
    rfl
  · rw [he, List.cons_append, xml_unescape, if_neg hamp, List.nil_append]

theorem unescape_escaped (s : List Char) : xml_unescape 0 (escaped s) = some s := by
  induction s with
  | nil => rfl
  | cons c s ih => rw [escaped_cons, unescape_entity, ih, Option.map_some]

/-! ## The buffer -/

theorem store_here (front rest : Buffer) (cell : Option Char) (c : Char) :
    store (front ++ cell :: rest) front.length c = .ok (front ++ some c :: rest) := by
  have hlt : front.length < (front ++ cell :: rest).length := by simp
  rw [store, if_pos hlt, List.set_append_right _ _ (Nat.le_refl _), Nat.sub_self, List.set_cons_zero]

/-- Bytes written behind the front of a buffer that has room for them. -/
theorem store_all_here (front rest : Buffer) (cs : List Char) (h : cs.length ≤ rest.length) :
    store_all (front ++ rest) front.length cs =
      .ok (front ++ cs.map some ++ rest.drop cs.length) := by
  induction cs generalizing front rest with
  | nil => simp [store_all]
  | cons c cs ih =>
    cases rest with
    | nil => simp at h
    | cons cell rest =>
      have hlen : front.length + 1 = (front ++ [some c]).length := by simp
      have hcons : front ++ some c :: rest = front ++ [some c] ++ rest := by simp
      rw [store_all, store_here, ok_bind, hlen, hcons, ih _ rest (by simpa using h)]
      simp

theorem strlen_terminated (hs : NUL ∉ s) (after : List Char) :
    strlen (s ++ NUL :: after) = .ok s.length := by
  induction s with
  | nil => rfl
  | cons c s ih =>
    rw [List.mem_cons, not_or] at hs
    rw [List.cons_append, strlen, if_neg (Ne.symm hs.1), ih hs.2]
    rfl

theorem buffer_text_terminated (hs : NUL ∉ s) (rest : Buffer) :
    buffer_text (s.map some ++ some NUL :: rest) = some s := by
  induction s with
  | nil => rfl
  | cons c s ih =>
    rw [List.mem_cons, not_or] at hs
    rw [List.map_cons, List.cons_append, buffer_text, if_neg (Ne.symm hs.1), ih hs.2]
    rfl

theorem entity_length (c : Char) : (entity c).length ≤ 5 := by
  have hemitted : ∀ e ∈ emitted, e.length ≤ 5 := by decide
  rcases entity_emitted_or_plain c with hmem | ⟨-, he⟩
  · exact hemitted _ hmem
  · rw [he]
    simp

/-- The branches of the loop that copy an entity. -/
theorem change_char_emitted (buf : Buffer) (p : Nat) {c : Char} (h : entity c ∈ emitted) :
    change_char buf p c =
      (strcpy buf p (entity c)).map fun buf => (buf, p + (entity c).length) := by
  rcases entity_cases c with ⟨rfl, -⟩ | ⟨rfl, -⟩ | ⟨rfl, -⟩ | ⟨-, he⟩
  · rfl
  · rfl
  · rfl
  · rw [he] at h
    simp [emitted] at h

/-- A turn of the loop writes the entity, and perhaps a NUL that the next turn writes over. -/
theorem change_char_here (front rest : Buffer) (c : Char) (h : 6 ≤ rest.length) :
    ∃ rest', change_char (front ++ rest) front.length c =
        .ok (front ++ (entity c).map some ++ rest', (front ++ (entity c).map some).length) ∧
      rest'.length + (entity c).length = rest.length := by
  rcases entity_emitted_or_plain c with hmem | ⟨⟨hamp, hgt, hlt⟩, he⟩
  · have hlen := entity_length c
    have hroom : (entity c ++ [NUL]).length ≤ rest.length := by
      rw [List.length_append, List.length_singleton]
      omega
    rw [change_char_emitted _ _ hmem, strcpy, store_all_here front rest _ hroom]
    refine ⟨some NUL :: rest.drop ((entity c).length + 1), ?_, ?_⟩
    · simp [Except.map]
    · simp
      omega
  · unfold change_char
    rw [if_neg hamp, if_neg hgt, if_neg hlt, he]
    cases rest with
    | nil => simp at h
    | cons cell rest =>
      rw [store_here]
      exact ⟨rest, by simp, rfl⟩

theorem change_loop_here (hs : NUL ∉ s) (front rest : Buffer) (after : List Char)
    (h : s.length * 5 + 1 ≤ rest.length) :
    ∃ rest', change_loop (front ++ rest) front.length (s ++ NUL :: after) =
        .ok (front ++ (escaped s).map some ++ some NUL :: rest') ∧
      rest'.length + (escaped s).length + 1 = rest.length := by
  induction s generalizing front rest with
  | nil =>
    cases rest with
    | nil => simp at h
    | cons cell rest =>
      refine ⟨rest, ?_, rfl⟩
      rw [List.nil_append, change_loop, if_pos rfl, store_here]
      simp [escaped]
  | cons c s ih =>
    rw [List.mem_cons, not_or] at hs
    rw [List.length_cons] at h
    obtain ⟨rest₁, hturn, hlen₁⟩ := change_char_here front rest c (by omega)
    have hroom := entity_length c
    obtain ⟨rest₂, hloop, hlen₂⟩ := ih hs.2 (front ++ (entity c).map some) rest₁ (by omega)
    refine ⟨rest₂, ?_, ?_⟩
    · rw [List.cons_append, change_loop, if_neg (Ne.symm hs.1), hturn, ok_bind]
      refine hloop.trans ?_
      rw [escaped_cons, List.map_append, List.append_assoc front]
    · rw [escaped_cons, List.length_append]
      omega

theorem nul_not_escaped (hs : NUL ∉ s) : NUL ∉ escaped s := by
  have hall : ∀ x ∈ escaped s, x ≠ NUL := by
    apply forall_escaped
    · simp [emitted, NUL]
    · rintro c hc - - rfl
      exact hs hc
  exact fun h => hall NUL h rfl

/-- The call writes inside its buffer, and the text in it is the escaped string. -/
theorem change_string_text (hs : NUL ∉ s) (after : List Char) :
    ∃ buf, xmpp_ua_change_string (s ++ NUL :: after) = .ok buf ∧
      buf.length = s.length * 5 + 1 ∧ buffer_text buf = some (escaped s) := by
  obtain ⟨rest, hloop, hlen⟩ :=
    change_loop_here hs [] (malloc (s.length * 5 + 1)) after (by simp [malloc])
  refine ⟨(escaped s).map some ++ some NUL :: rest, ?_, ?_, ?_⟩
  · rw [xmpp_ua_change_string, strlen_terminated hs after, ok_bind]
    exact hloop
  · simp [malloc] at hlen ⊢
    omega
  · exact buffer_text_terminated (nul_not_escaped hs) rest

/-- The text that the commands of a client carry is the one in the buffer. -/
theorem change_string_toList (option : String) :
    (xmpp_commands.xmpp_ua_change_string option).toList = escaped option.toList := by
  have hchar : ∀ c : Char, String.toList (if c = '&' then "&amp;" else if c = '>' then "&gt;"
      else if c = '<' then "&lt;" else String.singleton c) = entity c := by
    intro c
    simp only [entity, apply_ite String.toList, String.toList_singleton]
  unfold xmpp_commands.xmpp_ua_change_string escaped
  rw [String.toList_join, List.flatMap_map]
  simp only [hchar]

end

/-- A string of C: its bytes before the NUL, and the memory behind it. -/
structure CString where
  bytes : List Char
  after : List Char
  no_nul : NUL ∉ bytes

def CString.memory (s : CString) : List Char := s.bytes ++ NUL :: s.after

/-- The call ends without a write outside the buffer of five bytes for each byte. The text in
it has no raw bracket, each `&` of it starts an entity that the function wrote, and it unescapes
to the string. -/
theorem the_escaped_string_unescapes_to_the_string (s : CString) :
    ∃ buf text, xmpp_ua_change_string s.memory = .ok buf ∧
      buf.length = s.bytes.length * 5 + 1 ∧ buffer_text buf = some text ∧
      '<' ∉ text ∧ '>' ∉ text ∧
      (∀ before after, text = before ++ '&' :: after → ∃ e ∈ emitted, e <+: '&' :: after) ∧
      xml_unescape 0 text = some s.bytes := by
  obtain ⟨buf, hcall, hlen, htext⟩ := change_string_text s.no_nul s.after
  obtain ⟨hlt, hgt⟩ := no_raw_bracket s.bytes
  exact ⟨buf, escaped s.bytes, hcall, hlen, htext, hlt, hgt, amp_starts_entity s.bytes,
    unescape_escaped s.bytes⟩

/-- The worst case: the buffer is full to its last byte. -/
example : xmpp_ua_change_string ['&', NUL] =
    .ok ([some '&', some 'a', some 'm', some 'p', some ';', some NUL] : Buffer) := by decide

end zonekey_mcu.xml_escaping
