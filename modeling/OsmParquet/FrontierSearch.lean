import Mathlib.Data.List.Basic
import Mathlib.Tactic.Common

/-!
A search in rounds: from the rows of one round the keys next to them are found, those not seen
before are fetched, and the rows fetched are the next round.

Some keys that are found cannot be fetched; they count as seen all the same. The search ends when
there is nothing to go on from, when nothing new is found, when nothing new can be fetched, or at a
bound on the number of rounds. What it gives is what can be reached over keys that can be fetched,
in as many steps as there are rounds.
-/

namespace OsmParquet.FrontierSearch

/-! ### Reaching -/

/-- What is reached in exactly `n` steps, the first of which gives what `start` says. -/
inductive Steps {κ : Type} (start : κ → Prop) (next : κ → κ → Prop) : ℕ → κ → Prop
  | one {k : κ} : start k → Steps start next 1 k
  | more {n : ℕ} {j k : κ} : Steps start next n j → next j k → Steps start next (n + 1) k

section Steps

variable {κ : Type} {start start' : κ → Prop} {next next' : κ → κ → Prop} {n : ℕ} {k : κ}

lemma Steps.pos (h : Steps start next n k) : 1 ≤ n := by
  cases h with
  | one => exact Nat.le_refl 1
  | more => omega

/-- Every key reached satisfies what the first step gives and each further step keeps. -/
lemma Steps.invariant {P : κ → Prop} (h1 : ∀ k, start k → P k) (h2 : ∀ j k, P j → next j k → P k)
    (h : Steps start next n k) : P k := by
  induction h with
  | one hs => exact h1 _ hs
  | more _ hn ih => exact h2 _ _ ih hn

lemma Steps.mono (h1 : ∀ k, start k → start' k) (h2 : ∀ j k, next j k → next' j k)
    (h : Steps start next n k) : Steps start' next' n k := by
  induction h with
  | one hs => exact .one (h1 _ hs)
  | more _ hn ih => exact .more ih (h2 _ _ hn)

/-- To start from what is one step further on saves a step. -/
lemma Steps.of_further
    (h : Steps (fun k => start k ∨ ∃ j, start j ∧ next j k) next n k) :
    ∃ m ≤ n + 1, Steps start next m k := by
  induction h with
  | one hs =>
    rcases hs with hs | ⟨j, hj, hk⟩
    · exact ⟨1, by omega, .one hs⟩
    · exact ⟨2, by omega, .more (.one hj) hk⟩
  | more _ hn ih =>
    obtain ⟨m, hm, h⟩ := ih
    exact ⟨m + 1, by omega, .more h hn⟩

lemma Steps.to_further (h : Steps start next n k) :
    ∃ m, (m + 1 ≤ n ∨ m = 1) ∧ Steps (fun k => start k ∨ ∃ j, start j ∧ next j k) next m k := by
  induction h with
  | one hs => exact ⟨1, .inr rfl, .one (.inl hs)⟩
  | @more n j k hj hn ih =>
    cases hj with
    | one hs => exact ⟨1, .inr rfl, .one (.inr ⟨j, hs, hn⟩)⟩
    | more hj' hn' =>
      obtain ⟨m, hm, h⟩ := ih
      have hpos := hj'.pos
      exact ⟨m + 1, .inl (by omega), .more h hn⟩

variable (Edge : κ → κ → Prop) (Exists : κ → Prop) (set : List κ)

/-- What is reached from a set in `n` steps along edges, each of them to something that exists. -/
def StepsFrom : ℕ → κ → Prop :=
  Steps (fun k => (∃ x ∈ set, Edge x k) ∧ Exists k) fun j k => Edge j k ∧ Exists k

/-- What is reached from a set in one or more steps. -/
def ReachedFrom (k : κ) : Prop := ∃ n, StepsFrom Edge Exists set n k

variable {Edge Exists set}

/-- What is outside the set is reached without going through the set again. -/
lemma StepsFrom.avoid (h : StepsFrom Edge Exists set n k) (hk : k ∉ set) :
    ∃ m ≤ n, Steps (fun k => (∃ x ∈ set, Edge x k) ∧ Exists k ∧ k ∉ set)
      (fun j k => Edge j k ∧ Exists k ∧ k ∉ set) m k := by
  induction h with
  | one hs => exact ⟨1, Nat.le_refl 1, .one ⟨hs.1, hs.2, hk⟩⟩
  | @more n j k hj hnext ih =>
    by_cases hin : j ∈ set
    · have := Steps.pos hj
      exact ⟨1, by omega, .one ⟨⟨j, hin, hnext.1⟩, hnext.2, hk⟩⟩
    · obtain ⟨m, hm, h⟩ := ih hin
      exact ⟨m + 1, by omega, .more h ⟨hnext.1, hnext.2, hk⟩⟩

end Steps

/-! ### The search -/

/-- Why a search ended. -/
inductive Exit
  | noHop | nothingNew | nothingFetched | valve
  deriving DecidableEq, Repr

section Search

variable {ρ η κ : Type} [DecidableEq κ]

/-- What a round finds that was not seen. -/
def unseen (hopKey : η → κ) (seen : List κ) (found : List η) : List η :=
  found.filter fun h => hopKey h ∉ seen

variable (hop : List ρ → Option (List η)) (hopKey : η → κ) (fetch : List ρ → List η → List ρ)

/-- At most `n` rounds from the rows `frontier`: the rows fetched in all rounds, and why the search
ended. -/
def rounds : ℕ → List κ → List ρ → List ρ × Exit
  | 0, _, _ => ([], .valve)
  | n + 1, seen, frontier =>
    match hop frontier with
    | none => ([], .noHop)
    | some found =>
      let new := unseen hopKey seen found
      if new.isEmpty then ([], .nothingNew)
      else
        let rows := fetch frontier new
        if rows.isEmpty then ([], .nothingFetched)
        else
          let rest := rounds n (seen ++ new.map hopKey) rows
          (rows ++ rest.1, rest.2)

/-- A key is next to one of the rows. -/
def Finds (frontier : List ρ) (k : κ) : Prop :=
  ∃ found, hop frontier = some found ∧ ∃ h ∈ found, hopKey h = k

variable (key : ρ → κ) (Ok : ρ → Prop) (Edge : κ → κ → Prop) (Exists : κ → Prop)

/-- From rows that are fetched a hop finds what is next to one of them, and of what is found
exactly what exists is fetched. -/
structure Lawful : Prop where
  finds : ∀ rows : List ρ, (∀ r ∈ rows, Ok r) → ∀ k,
    (Finds hop hopKey rows k ↔ ∃ r ∈ rows, Edge (key r) k)
  fetched : ∀ frontier found new, hop frontier = some found → new ⊆ found → ∀ k,
    ((∃ r ∈ fetch frontier new, key r = k) ↔ (∃ h ∈ new, hopKey h = k) ∧ Exists k)
  ok : ∀ frontier found new, hop frontier = some found → new ⊆ found →
    ∀ r ∈ fetch frontier new, Ok r

/-- What exists and is not seen is reached from the rows in `n` steps over the same. -/
def Reached (seen : List κ) (frontier : List ρ) : ℕ → κ → Prop :=
  Steps (fun k => Finds hop hopKey frontier k ∧ Exists k ∧ k ∉ seen)
    fun j k => Edge j k ∧ Exists k ∧ k ∉ seen

variable {hop hopKey fetch key Ok Edge Exists}
variable {seen : List κ} {frontier : List ρ} {found : List η} {n : ℕ} {k : κ}

omit [DecidableEq κ] in
lemma Reached.exists_notMem (h : Reached hop hopKey Edge Exists seen frontier n k) :
    Exists k ∧ k ∉ seen :=
  Steps.invariant (P := fun k => Exists k ∧ k ∉ seen) (fun _ hs => hs.2) (fun _ _ _ hn => hn.2) h

lemma mem_unseen_keys : k ∈ (unseen hopKey seen found).map hopKey ↔
    (∃ h ∈ found, hopKey h = k) ∧ k ∉ seen := by
  unfold unseen
  constructor
  · intro h
    obtain ⟨x, hx, rfl⟩ := List.mem_map.mp h
    obtain ⟨h1, h2⟩ := List.mem_filter.mp hx
    exact ⟨⟨x, h1, rfl⟩, of_decide_eq_true h2⟩
  · rintro ⟨⟨x, hx, rfl⟩, hs⟩
    exact List.mem_map.mpr ⟨x, List.mem_filter.mpr ⟨hx, decide_eq_true hs⟩, rfl⟩

lemma unseen_subset (hopKey : η → κ) (seen : List κ) (found : List η) :
    unseen hopKey seen found ⊆ found := List.filter_subset_self _

/-- The rows that a round fetches are those reached in one step. -/
lemma mem_fetch_iff (hl : Lawful hop hopKey fetch key Ok Edge Exists)
    (hf : hop frontier = some found) :
    (∃ r ∈ fetch frontier (unseen hopKey seen found), key r = k) ↔
      Finds hop hopKey frontier k ∧ Exists k ∧ k ∉ seen := by
  rw [hl.fetched _ _ _ hf (unseen_subset _ _ _), ← List.mem_map, mem_unseen_keys]
  constructor
  · rintro ⟨⟨hx, hs⟩, he⟩
    exact ⟨⟨found, hf, hx⟩, he, hs⟩
  · rintro ⟨⟨found', hf', hx⟩, he, hs⟩
    rw [hf] at hf'
    cases hf'
    exact ⟨⟨hx, hs⟩, he⟩

section Cut

variable (hl : Lawful hop hopKey fetch key Ok Edge Exists) (hf : hop frontier = some found)

include hl hf

/-- **A walk is cut at the last key that the first round fetches**: what is left of it starts at a
row fetched and avoids everything seen after the round. -/
lemma reached_cut (h : Reached hop hopKey Edge Exists seen frontier n k) :
    (Finds hop hopKey frontier k ∧ Exists k ∧ k ∉ seen) ∨
      ∃ m, m + 1 ≤ n ∧ Reached hop hopKey Edge Exists
        (seen ++ (unseen hopKey seen found).map hopKey)
        (fetch frontier (unseen hopKey seen found)) m k := by
  have hfinds := hl.finds _ (hl.ok _ _ _ hf (unseen_subset hopKey seen found))
  induction h with
  | one hs => exact Or.inl hs
  | @more n j k hj hnext ih =>
    obtain ⟨hedge, hex, hseen⟩ := hnext
    by_cases hk : k ∈ (unseen hopKey seen found).map hopKey
    · exact Or.inl ⟨⟨found, hf, (mem_unseen_keys.mp hk).1⟩, hex, hseen⟩
    · have hnot : k ∉ seen ++ (unseen hopKey seen found).map hopKey := by
        simp only [List.mem_append, not_or]
        exact ⟨hseen, hk⟩
      right
      rcases ih with hfirst | ⟨m, hm, hr⟩
      · obtain ⟨r, hr, rfl⟩ := (mem_fetch_iff hl hf).mpr hfirst
        have hpos := Steps.pos hj
        exact ⟨1, by omega, .one ⟨(hfinds _).mpr ⟨r, hr, hedge⟩, hex, hnot⟩⟩
      · exact ⟨m + 1, by omega, .more hr ⟨hedge, hex, hnot⟩⟩

/-- What is reached from the rows of a round is reached from the rows before, in one step more. -/
lemma reached_of_fetched
    (h : Reached hop hopKey Edge Exists (seen ++ (unseen hopKey seen found).map hopKey)
      (fetch frontier (unseen hopKey seen found)) n k) :
    Reached hop hopKey Edge Exists seen frontier (n + 1) k := by
  have hfinds := hl.finds _ (hl.ok _ _ _ hf (unseen_subset hopKey seen found))
  have hseen : ∀ {k}, k ∉ seen ++ (unseen hopKey seen found).map hopKey → k ∉ seen :=
    fun h hs => h (List.mem_append_left _ hs)
  induction h with
  | one hs =>
    obtain ⟨hstart, hex, hnot⟩ := hs
    obtain ⟨r, hr, hedge⟩ := (hfinds _).mp hstart
    exact .more (.one ((mem_fetch_iff hl hf).mp ⟨r, hr, rfl⟩)) ⟨hedge, hex, hseen hnot⟩
  | more _ hnext ih => exact .more ih ⟨hnext.1, hnext.2.1, hseen hnext.2.2⟩

end Cut

/-- One round of the search, with the rounds after it. -/
lemma rounds_succ (hf : hop frontier = some found) :
    rounds hop hopKey fetch (n + 1) seen frontier =
      if (unseen hopKey seen found).isEmpty then ([], .nothingNew)
      else if (fetch frontier (unseen hopKey seen found)).isEmpty then ([], .nothingFetched)
      else (fetch frontier (unseen hopKey seen found) ++ (rounds hop hopKey fetch n
          (seen ++ (unseen hopKey seen found).map hopKey)
          (fetch frontier (unseen hopKey seen found))).1,
        (rounds hop hopKey fetch n (seen ++ (unseen hopKey seen found).map hopKey)
          (fetch frontier (unseen hopKey seen found))).2) := by
  rw [rounds, hf]

omit [DecidableEq κ] in
/-- When no first step is possible nothing is reached. -/
lemma not_reached (he : ∀ k, ¬ (Finds hop hopKey frontier k ∧ Exists k ∧ k ∉ seen)) :
    ¬ Reached hop hopKey Edge Exists seen frontier n k := by
  intro h
  induction h with
  | one hs => exact he _ hs
  | more _ _ ih => exact ih

/-- What is reached is reached in a first step or from the rows of the first round. -/
lemma reached_iff (hl : Lawful hop hopKey fetch key Ok Edge Exists)
    (hf : hop frontier = some found) :
    (∃ m ≤ n + 1, Reached hop hopKey Edge Exists seen frontier m k) ↔
      (∃ r ∈ fetch frontier (unseen hopKey seen found), key r = k) ∨
        ∃ m ≤ n, Reached hop hopKey Edge Exists (seen ++ (unseen hopKey seen found).map hopKey)
          (fetch frontier (unseen hopKey seen found)) m k := by
  rw [mem_fetch_iff hl hf]
  constructor
  · rintro ⟨m, hm, h⟩
    rcases reached_cut hl hf h with h1 | ⟨m', hm', h'⟩
    · exact Or.inl h1
    · exact Or.inr ⟨m', by omega, h'⟩
  · rintro (h1 | ⟨m, hm, h⟩)
    · exact ⟨1, by omega, .one h1⟩
    · exact ⟨m + 1, by omega, reached_of_fetched hl hf h⟩

/-- **What a search gives**: the keys of its rows are those reached in as many steps as it has
rounds, over keys that exist and were not seen at the start. -/
lemma mem_rounds (hl : Lawful hop hopKey fetch key Ok Edge Exists) :
    (∃ r ∈ (rounds hop hopKey fetch n seen frontier).1, key r = k) ↔
      ∃ m ≤ n, Reached hop hopKey Edge Exists seen frontier m k := by
  induction n generalizing seen frontier with
  | zero =>
    constructor
    · rintro ⟨r, hr, -⟩
      cases hr
    · rintro ⟨m, hm, h⟩
      have := Steps.pos h
      omega
  | succ n ih =>
    rcases hf : hop frontier with _ | found
    · rw [rounds, hf]
      have hno : ∀ k, ¬ (Finds hop hopKey frontier k ∧ Exists k ∧ k ∉ seen) := by
        rintro k ⟨⟨found, hfound, -⟩, -⟩
        rw [hf] at hfound
        cases hfound
      constructor
      · rintro ⟨r, hr, -⟩
        cases hr
      · rintro ⟨m, -, h⟩
        exact absurd h (not_reached hno)
    · have hno : fetch frontier (unseen hopKey seen found) = [] →
          ∀ k m, ¬ Reached hop hopKey Edge Exists seen frontier m k := by
        intro he k m
        refine not_reached fun k' hk' => ?_
        obtain ⟨r, hr, -⟩ := (mem_fetch_iff hl hf).mpr hk'
        rw [he] at hr
        cases hr
      rw [rounds_succ hf]
      split
      · rename_i hnew
        have he : fetch frontier (unseen hopKey seen found) = [] := by
          refine List.eq_nil_iff_forall_not_mem.mpr fun r hr => ?_
          obtain ⟨⟨x, hx, -⟩, -⟩ := (hl.fetched _ _ _ hf (unseen_subset _ _ _) _).mp ⟨r, hr, rfl⟩
          rw [List.isEmpty_iff.mp hnew] at hx
          cases hx
        simp [hno he]
      · split
        · rename_i hrows
          simp [hno (List.isEmpty_iff.mp hrows)]
        · rw [reached_iff hl hf, ← ih]
          simp only [List.mem_append]
          constructor
          · rintro ⟨r, hr | hr, hk⟩
            · exact Or.inl ⟨r, hr, hk⟩
            · exact Or.inr ⟨r, hr, hk⟩
          · rintro (⟨r, hr, hk⟩ | ⟨r, hr, hk⟩)
            · exact ⟨r, Or.inl hr, hk⟩
            · exact ⟨r, Or.inr hr, hk⟩

/-- A search that its bound has ended has just reached something that takes that many steps. -/
lemma exists_far_of_valve (hl : Lawful hop hopKey fetch key Ok Edge Exists)
    (h : (rounds hop hopKey fetch (n + 1) seen frontier).2 = .valve) :
    ∃ k, Reached hop hopKey Edge Exists seen frontier (n + 1) k ∧
      ∀ m ≤ n, ¬ Reached hop hopKey Edge Exists seen frontier m k := by
  induction n generalizing seen frontier with
  | zero =>
    rcases hf : hop frontier with _ | found
    · rw [rounds, hf] at h
      cases h
    · rw [rounds_succ hf] at h
      split at h
      · cases h
      · split at h
        · cases h
        · rename_i hrows
          obtain ⟨r, hr⟩ := List.exists_mem_of_ne_nil _ fun he => hrows (List.isEmpty_iff.mpr he)
          refine ⟨key r, .one ((mem_fetch_iff hl hf).mp ⟨r, hr, rfl⟩), fun m hm hm' => ?_⟩
          have := Steps.pos hm'
          omega
  | succ n ih =>
    rcases hf : hop frontier with _ | found
    · rw [rounds, hf] at h
      cases h
    · rw [rounds_succ hf] at h
      split at h
      · cases h
      · split at h
        · cases h
        · obtain ⟨k, hk, hfar⟩ := ih h
          refine ⟨k, reached_of_fetched hl hf hk, fun m hm hm' => ?_⟩
          rcases reached_cut hl hf hm' with ⟨⟨found', hf', x, hx, hxk⟩, -, hs⟩ | ⟨m', hm'', h'⟩
          · rw [hf] at hf'
            cases hf'
            have hnot := (Reached.exists_notMem hk).2
            exact hnot (List.mem_append_right _ (mem_unseen_keys.mpr ⟨⟨x, hx, hxk⟩, hs⟩))
          · exact hfar m' (by omega) h'

section Exact

variable (Next : κ → κ → Prop)

omit [DecidableEq κ] in
/-- What is reached along edges that a hop follows, and was not seen, is reached by the search. -/
lemma reached_of_stepsFrom (hstart : ∀ k, (∃ x ∈ seen, Next x k) → Exists k → k ∉ seen →
      Finds hop hopKey frontier k) (hedge : ∀ j k, Next j k → Edge j k) (hk : k ∉ seen)
    (h : StepsFrom Next Exists seen n k) :
    ∃ m ≤ n, Reached hop hopKey Edge Exists seen frontier m k := by
  obtain ⟨m, hm, h'⟩ := h.avoid hk
  exact ⟨m, hm, h'.mono (fun k hs => ⟨hstart k hs.1 hs.2.1 hs.2.2, hs.2⟩)
    fun j k hn => ⟨hedge j k hn.1, hn.2⟩⟩

/-- **When a search is exact**: it finds what its first hop and the edges should give, whatever
else a hop finds is reached anyway, and nothing is further than the bound. Then the bound is not
what ends it. -/
lemma rounds_exact (hl : Lawful hop hopKey fetch key Ok Edge Exists)
    (hstart : ∀ k, (∃ x ∈ seen, Next x k) → Exists k → k ∉ seen → Finds hop hopKey frontier k)
    (hedge : ∀ j k, Next j k → Edge j k)
    (hfirst : ∀ k, Finds hop hopKey frontier k → Exists k → k ∉ seen →
      ReachedFrom Next Exists seen k)
    (hmore : ∀ j k, ReachedFrom Next Exists seen j → Edge j k → Exists k → k ∉ seen →
      ReachedFrom Next Exists seen k)
    (hwithin : ∀ k, ReachedFrom Next Exists seen k → ∃ m ≤ n, StepsFrom Next Exists seen m k) :
    (rounds hop hopKey fetch (n + 1) seen frontier).2 ≠ .valve ∧
      ∀ k, (∃ r ∈ (rounds hop hopKey fetch (n + 1) seen frontier).1, key r = k) ↔
        ReachedFrom Next Exists seen k ∧ k ∉ seen := by
  have hsound : ∀ m k, Reached hop hopKey Edge Exists seen frontier m k →
      ReachedFrom Next Exists seen k := fun m k h =>
    Steps.invariant (fun k hs => hfirst k hs.1 hs.2.1 hs.2.2)
      (fun j k hj hn => hmore j k hj hn.1 hn.2.1 hn.2.2) h
  constructor
  · intro hv
    obtain ⟨k, hk, hfar⟩ := exists_far_of_valve hl hv
    obtain ⟨m, hm, hsteps⟩ := hwithin k (hsound _ k hk)
    obtain ⟨m', hm', hr⟩ := reached_of_stepsFrom Next hstart hedge hk.exists_notMem.2 hsteps
    exact hfar m' (by omega) hr
  · intro k
    rw [mem_rounds hl]
    constructor
    · rintro ⟨m, -, h⟩
      exact ⟨hsound m k h, h.exists_notMem.2⟩
    · rintro ⟨hr, hk⟩
      obtain ⟨m, hm, hsteps⟩ := hwithin k hr
      obtain ⟨m', hm', h⟩ := reached_of_stepsFrom Next hstart hedge hk hsteps
      exact ⟨m', by omega, h⟩

end Exact

end Search

end OsmParquet.FrontierSearch
