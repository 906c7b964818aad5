-- A watchdog that looks at a counter from time to time. When a period has passed since the last
-- look that it recorded, it compares the counter with the one of then, and an equal one is a
-- death. The calls come at any times, and the counter counts arrivals at any times.
import Mathlib.Algebra.Order.Field.Basic
import Mathlib.Tactic.Linarith

namespace watchdog

structure Watchdog (T : Type) where
  dead : Bool
  last : T
  seen : Nat
  deriving DecidableEq, Repr

/-! ## The counter -/

section

variable {T : Type} [LinearOrder T] {a b t now x : T} {arrivals : List T}

/-- The arrivals up to a time. -/
def count (arrivals : List T) (now : T) : Nat := arrivals.countP fun a => a ≤ now

theorem count_mono (arrivals : List T) (h : a ≤ b) : count arrivals a ≤ count arrivals b := by
  refine List.countP_mono_left fun x _ hx => ?_
  exact decide_eq_true ((of_decide_eq_true hx).trans h)

/-- An arrival between two times is counted in between. -/
theorem count_lt (hx : x ∈ arrivals) (hax : a < x) (hxb : x ≤ b) :
    count arrivals a < count arrivals b := by
  obtain ⟨front, back, rfl⟩ := List.append_of_mem hx
  have hab : a ≤ b := hax.le.trans hxb
  have hfront := count_mono front hab
  have hback := count_mono back hab
  unfold count at *
  simp only [List.countP_append, List.countP_cons, not_le.mpr hax, hxb, decide_false, decide_true,
    Bool.false_eq_true, if_true, if_false]
  omega

/-- Behind the last arrival all are counted. -/
theorem count_all (h : ∀ a ∈ arrivals, a ≤ t) (hnow : t ≤ now) :
    count arrivals now = arrivals.length :=
  List.countP_eq_length.mpr fun a ha => decide_eq_true ((h a ha).trans hnow)

end

/-! ## The checks -/

/-- The time of the last call. -/
def ends {T : Type} : T → List T → T
  | t, [] => t
  | _, c :: calls => ends c calls

theorem ends_snoc {T : Type} (t : T) (early : List T) (c : T) : ends t (early ++ [c]) = c := by
  induction early generalizing t with
  | nil => rfl
  | cons x early ih => exact ih x

section

variable {T : Type} [Field T] [LinearOrder T]

def Watchdog.check (period : T) (w : Watchdog T) (now : T) (count : Nat) : Watchdog T :=
  if w.dead then w
  else if now - w.last > period then
    if w.seen = count then { w with dead := true }
    else { dead := false, last := now, seen := count }
  else w

/-- The checks at the times of the calls. -/
def Watchdog.checks (period : T) (arrivals : List T) : Watchdog T → List T → Watchdog T
  | w, [] => w
  | w, now :: calls => (w.check period now (count arrivals now)).checks period arrivals calls

/-- The watchdog that starts at a time. -/
def Watchdog.start (t : T) : Watchdog T := { dead := false, last := t, seen := 0 }

/-- The calls come one after another, from `t` on, at most `d` apart. -/
def Paced (d : T) : T → List T → Prop
  | _, [] => True
  | t, c :: calls => t < c ∧ c - t ≤ d ∧ Paced d c calls

variable {period d t c : T} {arrivals calls : List T} {w : Watchdog T}

/-- What a check can do. -/
theorem check_cases (period : T) (w : Watchdog T) (now : T) (n : Nat) :
    w.dead = true ∧ w.check period now n = w ∨
      w.dead = false ∧
        (now - w.last ≤ period ∧ w.check period now n = w ∨
          period < now - w.last ∧
            (w.seen = n ∧ w.check period now n = { w with dead := true } ∨
              w.seen ≠ n ∧
                w.check period now n = { dead := false, last := now, seen := n })) := by
  unfold Watchdog.check
  cases hdead : w.dead with
  | true => exact .inl ⟨rfl, if_pos rfl⟩
  | false =>
    refine .inr ⟨rfl, ?_⟩
    rw [if_neg (by decide)]
    by_cases hlate : now - w.last > period
    · rw [if_pos hlate]
      by_cases hseen : w.seen = n
      · exact .inr ⟨hlate, .inl ⟨hseen, if_pos hseen⟩⟩
      · exact .inr ⟨hlate, .inr ⟨hseen, if_neg hseen⟩⟩
    · exact .inl ⟨not_lt.mp hlate, if_neg hlate⟩

/-- What each call keeps, a paced run keeps. -/
theorem checks_keep {J : Watchdog T → T → Prop}
    (hstep : ∀ w now c, J w now → now < c → c - now ≤ d → c ∈ calls →
      J (w.check period c (count arrivals c)) c)
    (h : J w t) (hpaced : Paced d t calls) :
    J (w.checks period arrivals calls) (ends t calls) := by
  induction calls generalizing w t with
  | nil => exact h
  | cons c calls ih =>
    obtain ⟨hlt, hle, hrest⟩ := hpaced
    exact ih (fun w now c' hJ hlt hle hmem => hstep w now c' hJ hlt hle
      (List.mem_cons_of_mem c hmem)) (hstep w t c h hlt hle List.mem_cons_self) hrest

theorem ends_ge (hpaced : Paced d t calls) : t ≤ ends t calls ∧ ∀ c ∈ calls, c ≤ ends t calls := by
  induction calls generalizing t with
  | nil => exact ⟨le_refl t, fun c hc => absurd hc List.not_mem_nil⟩
  | cons c calls ih =>
    obtain ⟨hlt, -, hrest⟩ := hpaced
    obtain ⟨hge, hall⟩ := ih hrest
    exact ⟨hlt.le.trans hge, List.forall_mem_cons.mpr ⟨hge, hall⟩⟩

theorem checks_append (w : Watchdog T) (early late : List T) :
    w.checks period arrivals (early ++ late) =
      (w.checks period arrivals early).checks period arrivals late := by
  induction early generalizing w with
  | nil => rfl
  | cons c early ih => exact ih _

theorem dead_stays (h : w.dead = true) (calls : List T) :
    (w.checks period arrivals calls).dead = true := by
  induction calls generalizing w with
  | nil => exact h
  | cons c calls ih =>
    rcases check_cases period w c (count arrivals c) with ⟨-, heq⟩ | ⟨halive, -⟩
    · rw [Watchdog.checks, heq]
      exact ih h
    · rw [h] at halive
      cases halive

end

/-! ## Paced runs -/

section

variable {T : Type} [Field T] [LinearOrder T] [IsStrictOrderedRing T]
  {period d t c bound : T} {arrivals calls : List T} {w : Watchdog T}

/-- An arrival in each period keeps the watchdog alive. -/
theorem alive_while_arrivals (hperiod : 0 ≤ period) (hpaced : Paced d t calls)
    (hwindows : ∀ a, t ≤ a → a + period ≤ ends t calls →
      ∃ x ∈ arrivals, a ≤ x ∧ x ≤ a + period) :
    ((Watchdog.start t).checks period arrivals calls).dead = false := by
  have hends := ends_ge hpaced
  refine (checks_keep (J := fun w now => w.dead = false ∧ t ≤ w.last ∧
    w.seen ≤ count arrivals w.last) ?_ ⟨rfl, le_refl t, Nat.zero_le _⟩ hpaced).1
  intro w now c ⟨halive, hlast, hseen⟩ hlt _ hmem
  rcases check_cases period w c (count arrivals c) with
    ⟨hdead, -⟩ | ⟨-, ⟨-, heq⟩ | ⟨hlate, ⟨hsame, -⟩ | ⟨-, heq⟩⟩⟩
  · rw [halive] at hdead
    cases hdead
  · rw [heq]
    exact ⟨halive, hlast, hseen⟩
  · obtain ⟨x, hx, hax, hxb⟩ := hwindows (c - period) (by linarith)
      (by linarith [hends.2 c hmem])
    have hmore := count_lt hx (by linarith : w.last < x) (by linarith : x ≤ c)
    omega
  · rw [heq]
    exact ⟨rfl, by dsimp only; linarith, Nat.le_refl _⟩

/-- How far a live watchdog can be behind the last arrival, which came at `t` or before. -/
structure Behind (period d t : T) (arrivals : List T) (w : Watchdog T) (now : T) : Prop where
  recent : now - w.last ≤ period
  recorded : w.last ≤ t ∨ w.seen = arrivals.length ∧ w.last ≤ t + period + d

theorem behind_step (hperiod : 0 ≤ period) (harrivals : ∀ a ∈ arrivals, a ≤ t) {now : T}
    (h : w.dead = true ∨ Behind period d t arrivals w now) (hle : c - now ≤ d) :
    (w.check period c (count arrivals c)).dead = true ∨
      Behind period d t arrivals (w.check period c (count arrivals c)) c := by
  rcases check_cases period w c (count arrivals c) with
    ⟨hdead, heq⟩ | ⟨halive, ⟨hsoon, heq⟩ | ⟨hlate, ⟨-, heq⟩ | ⟨hsame, heq⟩⟩⟩
  · rw [heq]
    exact .inl hdead
  · rcases h with hdead | h
    · rw [hdead] at halive
      cases halive
    · rw [heq]
      exact .inr ⟨hsoon, h.recorded⟩
  · rw [heq]
    exact .inl rfl
  · rcases h with hdead | h
    · rw [hdead] at halive
      cases halive
    · rw [heq]
      refine .inr ⟨by dsimp only; linarith, ?_⟩
      dsimp only
      rcases h.recorded with hold | ⟨hall, -⟩
      · by_cases hct : c ≤ t
        · exact .inl hct
        · have hrecent := h.recent
          exact .inr ⟨count_all harrivals (not_le.mp hct).le, by linarith⟩
      -- a second record after the last arrival would have been a death
      · by_cases hct : c ≤ t
        · exact .inl hct
        · exact absurd (hall.trans (count_all harrivals (not_le.mp hct).le).symm) hsame

/-- The first call behind a time is at most `d` behind it. -/
theorem first_behind (hpaced : Paced d t calls) (ht : t ≤ bound) (h : ∃ c ∈ calls, bound < c) :
    ∃ early c late, calls = early ++ c :: late ∧ (∀ x ∈ early, x ≤ bound) ∧ bound < c ∧
      c ≤ bound + d ∧ Paced d t (early ++ [c]) := by
  induction calls generalizing t with
  | nil => simp at h
  | cons x calls ih =>
    obtain ⟨hlt, hle, hrest⟩ := hpaced
    by_cases hx : bound < x
    · exact ⟨[], x, calls, rfl, fun y hy => absurd hy List.not_mem_nil, hx, by linarith, hlt, hle,
        trivial⟩
    · have hx' := not_lt.mp hx
      obtain ⟨c, hc, hbc⟩ := h
      have hmem : c ∈ calls := by
        rcases List.mem_cons.mp hc with rfl | hmem
        · exact absurd hbc hx
        · exact hmem
      obtain ⟨early, c', late, rfl, hearly, hc', hcd, hp⟩ := ih hrest hx' ⟨c, hmem, hbc⟩
      exact ⟨x :: early, c', late, rfl, List.forall_mem_cons.mpr ⟨hx', hearly⟩, hc', hcd, hlt, hle,
        hp⟩

/-- With no arrival after `last`, the watchdog is dead two periods and two calls later, if it
is called that long. -/
theorem dead_without_arrivals {last : T} (hperiod : 0 ≤ period)
    (hpaced : Paced d t calls) (hlast : t ≤ last) (harrivals : ∀ a ∈ arrivals, a ≤ last)
    (hcalled : ∃ c ∈ calls, last + 2 * period + d < c) :
    ∃ early late, calls = early ++ late ∧ (∀ c ∈ early, c ≤ last + 2 * period + 2 * d) ∧
      ((Watchdog.start t).checks period arrivals early).dead = true := by
  have hd : 0 ≤ d := by
    obtain ⟨c, hc, -⟩ := hcalled
    cases calls with
    | nil => exact absurd hc List.not_mem_nil
    | cons x calls => linarith [hpaced.1, hpaced.2.1]
  have hstop : t ≤ last + 2 * period + d := by linarith
  obtain ⟨early, c, late, rfl, hearly, hbc, hcd, hp⟩ := first_behind hpaced hstop hcalled
  refine ⟨early ++ [c], late, by simp, ?_, ?_⟩
  · intro x hx
    rcases List.mem_append.mp hx with hx | hx
    · linarith [hearly x hx]
    · obtain rfl := List.mem_singleton.mp hx
      linarith
  · have hstart : (Watchdog.start t).dead = true ∨
        Behind period d last arrivals (Watchdog.start t) t :=
      .inr ⟨by simp only [Watchdog.start]; linarith, .inl hlast⟩
    have hbehind := checks_keep (J := fun w now => w.dead = true ∨
      Behind period d last arrivals w now)
      (fun w now c h _ hle _ => behind_step hperiod harrivals h hle) hstart hp
    rw [ends_snoc] at hbehind
    rcases hbehind with hdead | h
    · exact hdead
    · have hrecent := h.recent
      rcases h.recorded with hold | ⟨-, hold⟩ <;> linarith

end

end watchdog
