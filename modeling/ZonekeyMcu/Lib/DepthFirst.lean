-- A depth first search that keeps the list of the nodes it has seen. From one node it sees what
-- can be reached from there, each node once.
import Mathlib.Data.Fintype.Card
import Mathlib.Data.List.Nodup
import Mathlib.Logic.Relation
import Mathlib.Tactic.Common

namespace depth_first

section

variable {ν ε : Type}

/-- A loop over nodes, each of which can end the search with an error. -/
def each (visit : List ν → ν → Except ε (List ν)) : List ν → List ν → Except ε (List ν)
  | seen, [] => .ok seen
  | seen, f :: fs => match visit seen f with
    | .ok seen => each visit seen fs
    | .error e => .error e

variable [DecidableEq ν]

/-- A node comes behind those that were seen before it, and `check` is made when everything
behind it has been seen. -/
def search (tooDeep : ε) (next : ν → List ν) (check : ν → Except ε Unit) :
    Nat → List ν → ν → Except ε (List ν)
  | 0, _, _ => .error tooDeep
  | fuel + 1, seen, f =>
    if f ∈ seen then .ok seen
    else match each (search tooDeep next check fuel) (seen ++ [f]) (next f) with
      | .ok seen => match check f with
        | .ok () => .ok seen
        | .error e => .error e
      | .error e => .error e

end

section

variable {ν ε : Type} {next : ν → List ν} {seen seen' seen'' : List ν} {f x : ν} {fs : List ν}

/-- From what was seen to what is seen later, by a search that was sent to `origins`. What is new
was reached from one of these, and the nodes next to it were seen. -/
structure Explored (next : ν → List ν) (origins seen seen' : List ν) : Prop where
  kept : seen <+: seen'
  nodup : seen'.Nodup
  reached : ∀ x ∈ seen', x ∉ seen →
    ∃ f ∈ origins, Relation.ReflTransGen (fun a b => b ∈ next a) f x
  closed : ∀ x ∈ seen', x ∉ seen → ∀ y ∈ next x, y ∈ seen'
  arrived : ∀ f ∈ origins, f ∈ seen'

theorem Explored.mem (h : Explored next fs seen seen') (hx : x ∈ seen) : x ∈ seen' :=
  h.kept.subset hx

theorem explored_nothing (hnodup : seen.Nodup) : Explored next [] seen seen where
  kept := List.prefix_refl _
  nodup := hnodup
  reached _ hx hnot := absurd hx hnot
  closed _ hx hnot := absurd hx hnot
  arrived _ hf := absurd hf List.not_mem_nil

theorem explored_seen (hnodup : seen.Nodup) (hf : f ∈ seen) : Explored next [f] seen seen where
  kept := List.prefix_refl _
  nodup := hnodup
  reached _ hx hnot := absurd hx hnot
  closed _ hx hnot := absurd hx hnot
  arrived _ hy := List.mem_singleton.mp hy ▸ hf

theorem Explored.trans (h : Explored next [f] seen seen') (h' : Explored next fs seen' seen'') :
    Explored next (f :: fs) seen seen'' where
  kept := h.kept.trans h'.kept
  nodup := h'.nodup
  reached x hx hnot := by
    by_cases hmid : x ∈ seen'
    · obtain ⟨y, hy, hpath⟩ := h.reached x hmid hnot
      exact ⟨y, List.mem_singleton.mp hy ▸ List.mem_cons_self, hpath⟩
    · obtain ⟨y, hy, hpath⟩ := h'.reached x hx hmid
      exact ⟨y, List.mem_cons_of_mem f hy, hpath⟩
  closed x hx hnot y hy := by
    by_cases hmid : x ∈ seen'
    · exact h'.mem (h.closed x hmid hnot y hy)
    · exact h'.closed x hx hmid y hy
  arrived y hy := by
    rcases List.mem_cons.mp hy with rfl | hy
    · exact h'.mem (h.arrived y List.mem_cons_self)
    · exact h'.arrived y hy

/-- The nodes next to a new one, and the new one itself. -/
theorem Explored.node (hf : f ∉ seen) (h : Explored next (next f) (seen ++ [f]) seen') :
    Explored next [f] seen seen' where
  kept := (List.prefix_append _ _).trans h.kept
  nodup := h.nodup
  reached x hx hnot := by
    refine ⟨f, List.mem_singleton_self f, ?_⟩
    by_cases hxf : x = f
    · rw [hxf]
    · obtain ⟨y, hy, hpath⟩ := h.reached x hx fun hmem => by
        rcases List.mem_append.mp hmem with hmem | hmem
        · exact hnot hmem
        · exact hxf (List.mem_singleton.mp hmem)
      exact Relation.ReflTransGen.head hy hpath
  closed x hx hnot y hy := by
    by_cases hxf : x = f
    · subst hxf
      exact h.arrived y hy
    · refine h.closed x hx (fun hmem => ?_) y hy
      rcases List.mem_append.mp hmem with hmem | hmem
      · exact hnot hmem
      · exact hxf (List.mem_singleton.mp hmem)
  arrived y hy := by
    rw [List.mem_singleton.mp hy]
    exact h.mem (List.mem_append_right _ (List.mem_singleton_self f))

/-- What is seen from one node, and no node before: all that can be reached from it. -/
theorem Explored.mem_iff (h : Explored next [f] [] seen') :
    x ∈ seen' ↔ Relation.ReflTransGen (fun a b => b ∈ next a) f x := by
  constructor
  · intro hx
    obtain ⟨y, hy, hpath⟩ := h.reached x hx List.not_mem_nil
    rwa [List.mem_singleton.mp hy] at hpath
  · intro hpath
    induction hpath with
    | refl => exact h.arrived f List.mem_cons_self
    | tail _ hnext ih => exact h.closed _ ih List.not_mem_nil _ hnext

end

section

variable {ν ε : Type} {tooDeep : ε} {next : ν → List ν} {check : ν → Except ε Unit}
  {good : ν → Prop}

/-- A loop of visits, from the spec of one visit. -/
theorem each_explores {visit : List ν → ν → Except ε (List ν)} {enough : List ν → Prop}
    (hvisit : ∀ seen f, good f → seen.Nodup → enough seen →
      ∃ seen', visit seen f = .ok seen' ∧ Explored next [f] seen seen')
    (hkeep : ∀ seen seen' : List ν, enough seen → seen.length ≤ seen'.length → enough seen')
    {fs : List ν} (hfs : ∀ f ∈ fs, good f) {seen : List ν} (hnodup : seen.Nodup)
    (henough : enough seen) :
    ∃ seen', each visit seen fs = .ok seen' ∧ Explored next fs seen seen' := by
  induction fs generalizing seen with
  | nil => exact ⟨seen, rfl, explored_nothing hnodup⟩
  | cons f fs ih =>
    obtain ⟨hf, hrest⟩ := List.forall_mem_cons.mp hfs
    obtain ⟨seen', hone, hexplored⟩ := hvisit seen f hf hnodup henough
    obtain ⟨seen'', hall, hexplored'⟩ :=
      ih hrest hexplored.nodup (hkeep seen seen' henough hexplored.kept.length_le)
    refine ⟨seen'', ?_, hexplored.trans hexplored'⟩
    simp only [each, hone]
    exact hall

variable [DecidableEq ν] [Fintype ν]

/-- The search ends in as many levels as there are nodes that it has not seen. `good` is a set of
nodes that the search does not leave. -/
theorem search_explores (hnext : ∀ f, good f → ∀ y ∈ next f, good y)
    (hcheck : ∀ f, good f → check f = .ok ()) {fuel : Nat} {seen : List ν} {f : ν} (hf : good f)
    (hnodup : seen.Nodup) (hfuel : Fintype.card ν < fuel + seen.length) :
    ∃ seen', search tooDeep next check fuel seen f = .ok seen' ∧ Explored next [f] seen seen' := by
  induction fuel generalizing seen f with
  | zero =>
    have := hnodup.length_le_card
    omega
  | succ fuel ih =>
    unfold search
    by_cases hseen : f ∈ seen
    · rw [if_pos hseen]
      exact ⟨seen, rfl, explored_seen hnodup hseen⟩
    · rw [if_neg hseen]
      have hnodup' : (seen ++ [f]).Nodup :=
        List.nodup_append.mpr ⟨hnodup, List.nodup_singleton f, fun a ha b hb heq =>
          hseen (List.mem_singleton.mp hb ▸ heq ▸ ha)⟩
      have hvisit : ∀ seen y, good y → seen.Nodup → Fintype.card ν < fuel + seen.length →
          ∃ seen', search tooDeep next check fuel seen y = .ok seen' ∧
            Explored next [y] seen seen' := fun seen y hy hn he => ih hy hn he
      have hkeep : ∀ seen seen' : List ν, Fintype.card ν < fuel + seen.length →
          seen.length ≤ seen'.length → Fintype.card ν < fuel + seen'.length := by
        intro seen seen' he hle
        omega
      obtain ⟨seen', heach, hexplored⟩ := each_explores hvisit hkeep (hnext f hf) hnodup'
        (by rw [List.length_append, List.length_singleton]; omega)
      refine ⟨seen', ?_, hexplored.node hseen⟩
      simp only [heach, hcheck f hf]

end

end depth_first
