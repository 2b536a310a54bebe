import Mathlib.Data.List.Forall2
import Mathlib.Data.List.Perm.Basic
import Mathlib.Order.Lattice

/-!
Merging sorted runs with a heap.

The heap holds the next element of every run that has one, with the number of the run. The
least of them is taken out and its place filled from the same run. A run is read through a
reader, whose state is whatever it is; `Produces` says which elements it will give.

What is still to come is what is on the heap and what the readers will give. Every element that a
reader will give has an element of its run before it on the heap, so that the least on the heap is
the least of all that is to come.
-/

namespace OsmParquet.RunMerge

variable {α ρ κ : Type} [LinearOrder κ]

/-- A least element and the others. -/
def popMin (key : α → κ) : List α → Option (α × List α)
  | [] => none
  | a :: l =>
    match popMin key l with
    | none => some (a, [])
    | some (b, l') => if key a ≤ key b then some (a, l) else some (b, a :: l')

lemma popMin_eq_none {key : α → κ} {l : List α} (h : popMin key l = none) : l = [] := by
  cases l with
  | nil => rfl
  | cons a l =>
    simp only [popMin] at h
    split at h
    · cases h
    · split_ifs at h

lemma popMin_spec {key : α → κ} {l l' : List α} {a : α} (h : popMin key l = some (a, l')) :
    l.Perm (a :: l') ∧ ∀ b ∈ l', key a ≤ key b := by
  induction l generalizing a l' with
  | nil => cases h
  | cons x l ih =>
    simp only [popMin] at h
    split at h
    · rename_i hnone
      cases h
      rw [popMin_eq_none hnone]
      exact ⟨List.Perm.refl _, fun b hb => (List.not_mem_nil hb).elim⟩
    · rename_i b r hsome
      obtain ⟨hperm, hmin⟩ := ih hsome
      split_ifs at h with hle
      · cases h
        refine ⟨List.Perm.refl _, fun y hy => ?_⟩
        rcases List.mem_cons.mp (hperm.mem_iff.mp hy) with rfl | hy
        · exact hle
        · exact le_trans hle (hmin y hy)
      · cases h
        refine ⟨(hperm.cons x).trans (List.Perm.swap _ _ _), fun y hy => ?_⟩
        rcases List.mem_cons.mp hy with rfl | hy
        · exact le_of_not_ge hle
        · exact hmin y hy

/-! ### The machine -/

/-- The readers, `none` for one at its end, and the heap. -/
structure Merge (α ρ : Type) where
  readers : List (Option ρ)
  heap : List (α × ℕ)

section Machine

variable (key : α → κ) (read : ρ → Option (Option (α × ρ)))

/-- A further run: its first element goes on the heap. Reading may fail. -/
def openRun (m : Merge α ρ) (r : ρ) : Option (Merge α ρ) :=
  match read r with
  | none => none
  | some none => some ⟨m.readers ++ [none], m.heap⟩
  | some (some (a, r')) => some ⟨m.readers ++ [some r'], (a, m.readers.length) :: m.heap⟩

def start (runs : List ρ) : Option (Merge α ρ) := runs.foldlM (openRun read) ⟨[], []⟩

/-- The next element, and `some none` at the end. -/
def next (m : Merge α ρ) : Option (Option (α × Merge α ρ)) :=
  match popMin (fun x => key x.1) m.heap with
  | none => some none
  | some ((a, i), heap) =>
    match m.readers[i]? with
    | none => none
    | some none => some (some (a, ⟨m.readers, heap⟩))
    | some (some r) =>
      match read r with
      | none => none
      | some none => some (some (a, ⟨m.readers.set i none, heap⟩))
      | some (some (b, r')) => some (some (a, ⟨m.readers.set i (some r'), (b, i) :: heap⟩))

/-- All elements, if there are fewer than `fuel`. -/
def collect : ℕ → Merge α ρ → Option (List α)
  | 0, _ => none
  | fuel + 1, m =>
    match next key read m with
    | none => none
    | some none => some []
    | some (some (a, m')) => (collect fuel m').map (a :: ·)

/-- The reader gives these elements and then ends. -/
inductive Produces : ρ → List α → Prop
  | done {r : ρ} (h : read r = some none) : Produces r []
  | step {r r' : ρ} {a : α} {l : List α} (h : read r = some (some (a, r'))) (t : Produces r' l) :
    Produces r (a :: l)

def Holds : Option ρ → List α → Prop
  | none, l => l = []
  | some r, l => Produces read r l

/-- What is known between two elements; `ls` are the elements that the readers will give. -/
structure Inv (m : Merge α ρ) (ls : List (List α)) : Prop where
  length : ls.length = m.readers.length
  holds : ∀ (i : ℕ) r l, m.readers[i]? = some r → ls[i]? = some l → Holds read r l
  sorted : ∀ l ∈ ls, l.Pairwise fun a b => key a ≤ key b
  front : ∀ (i : ℕ) l, ls[i]? = some l → ∀ b ∈ l, ∃ a, (a, i) ∈ m.heap ∧ key a ≤ key b
  inRange : ∀ x ∈ m.heap, x.2 < m.readers.length

/-- The elements that are still to come. -/
def pending (m : Merge α ρ) (ls : List (List α)) : List α := m.heap.map Prod.fst ++ ls.flatten

end Machine

section Proofs

variable {key : α → κ} {read : ρ → Option (Option (α × ρ))} {m : Merge α ρ} {ls : List (List α)}

/-! ### Opening the runs -/

lemma inv_empty : Inv key read (⟨[], []⟩ : Merge α ρ) [] where
  length := rfl
  holds := fun i r l h => by simp at h
  sorted := fun l h => (List.not_mem_nil h).elim
  front := fun i l h => by simp at h
  inRange := fun x h => (List.not_mem_nil h).elim

/-- A run more: its rest is sorted and comes after what is put on the heap for it. -/
lemma Inv.snoc (h : Inv key read m ls) {o : Option ρ} {l : List α} {heap : List (α × ℕ)}
    (hholds : Holds read o l) (hsorted : l.Pairwise fun a b => key a ≤ key b)
    (hsub : ∀ x ∈ m.heap, x ∈ heap) (hrange : ∀ x ∈ heap, x.2 < m.readers.length + 1)
    (hfront : ∀ b ∈ l, ∃ a, (a, m.readers.length) ∈ heap ∧ key a ≤ key b) :
    Inv key read ⟨m.readers ++ [o], heap⟩ (ls ++ [l]) where
  length := by simp [h.length]
  holds := by
    intro i r k hr hk
    rw [List.getElem?_append] at hr hk
    rw [h.length] at hk
    split_ifs at hr hk with hi
    · exact h.holds i r k hr hk
    · obtain ⟨rfl, rfl⟩ : o = r ∧ l = k := by
        rcases hx : i - m.readers.length with _ | n <;> simp_all
      exact hholds
  sorted := by
    intro k hk
    rcases List.mem_append.mp hk with hk | hk
    · exact h.sorted k hk
    · rwa [List.mem_singleton.mp hk]
  front := by
    intro i k hk b hb
    rw [List.getElem?_append, h.length] at hk
    split_ifs at hk with hi
    · obtain ⟨a, ha, hle⟩ := h.front i k hk b hb
      exact ⟨a, hsub _ ha, hle⟩
    · obtain ⟨hi0, rfl⟩ : i = m.readers.length ∧ l = k := by
        rcases hx : i - m.readers.length with _ | n <;> simp_all
        omega
      subst hi0
      exact hfront b hb
  inRange := by
    intro x hx
    simpa using hrange x hx

lemma step_openRun (h : Inv key read m ls) {r : ρ} {l : List α} (hp : Produces read r l)
    (hsorted : l.Pairwise fun a b => key a ≤ key b) :
    ∃ m' ls', openRun read m r = some m' ∧ Inv key read m' ls' ∧
      (pending m' ls').Perm (pending m ls ++ l) := by
  have hrange : ∀ x ∈ m.heap, x.2 < m.readers.length + 1 := fun x hx =>
    Nat.lt_succ_of_lt (h.inRange x hx)
  cases hp with
  | done hread =>
    refine ⟨⟨m.readers ++ [none], m.heap⟩, ls ++ [[]], by simp only [openRun, hread], ?_, ?_⟩
    · exact h.snoc rfl List.Pairwise.nil (fun _ hx => hx) hrange fun b hb =>
        (List.not_mem_nil hb).elim
    · simp [pending]
  | @step _ r' a l hread htail =>
    obtain ⟨hhead, htailSorted⟩ := List.pairwise_cons.mp hsorted
    refine ⟨⟨m.readers ++ [some r'], (a, m.readers.length) :: m.heap⟩, ls ++ [l],
      by simp only [openRun, hread], ?_, ?_⟩
    · refine h.snoc htail htailSorted (fun _ hx => List.mem_cons_of_mem _ hx) ?_
        fun b hb => ⟨a, List.mem_cons_self, hhead b hb⟩
      intro x hx
      rcases List.mem_cons.mp hx with rfl | hx
      · exact Nat.lt_succ_self _
      · exact hrange x hx
    · simp only [pending, List.map_cons, List.flatten_append, List.flatten_cons, List.flatten_nil,
        List.append_nil, List.cons_append, ← List.append_assoc]
      exact List.perm_middle.symm

lemma run_openRun (h : Inv key read m ls) {runs : List ρ} {lists : List (List α)}
    (hp : List.Forall₂ (Produces read) runs lists)
    (hsorted : ∀ l ∈ lists, l.Pairwise fun a b => key a ≤ key b) :
    ∃ m' ls', runs.foldlM (openRun read) m = some m' ∧ Inv key read m' ls' ∧
      (pending m' ls').Perm (pending m ls ++ lists.flatten) := by
  induction hp generalizing m ls with
  | nil => exact ⟨m, ls, rfl, h, by simp⟩
  | @cons r l runs lists hr _ ih =>
    obtain ⟨m₁, ls₁, hopen, h₁, hperm₁⟩ := step_openRun h hr (hsorted l List.mem_cons_self)
    obtain ⟨m₂, ls₂, hrun, h₂, hperm₂⟩ := ih h₁ fun k hk => hsorted k (List.mem_cons_of_mem _ hk)
    refine ⟨m₂, ls₂, ?_, h₂, ?_⟩
    · rw [List.foldlM_cons, hopen]
      exact hrun
    · rw [List.flatten_cons, ← List.append_assoc]
      exact hperm₂.trans (hperm₁.append_right _)

/-! ### Taking the next element -/

lemma perm_flatten_set {i : ℕ} {b : α} {bs : List α} (h : ls[i]? = some (b :: bs)) :
    ls.flatten.Perm (b :: (ls.set i bs).flatten) := by
  obtain ⟨hi, hget⟩ := List.getElem?_eq_some_iff.mp h
  obtain ⟨l₁, l₂, hls, -, hset⟩ : ∃ l₁ l₂, ls = l₁ ++ ls[i] :: l₂ ∧ l₁.length = i ∧
      ls.set i bs = l₁ ++ bs :: l₂ := List.exists_of_set hi
  rw [hset, hls, hget]
  simp only [List.flatten_append, List.flatten_cons, List.cons_append]
  exact List.perm_middle

lemma set_of_getElem? {β : Type} {l : List β} {i : ℕ} {x : β} (h : l[i]? = some x) :
    l.set i x = l := by
  obtain ⟨hi, hx⟩ := List.getElem?_eq_some_iff.mp h
  rw [← hx, List.set_getElem_self hi]

/-- The least of the heap is the least of all. -/
lemma popMin_le_pending (h : Inv key read m ls) {a : α} {i : ℕ} {heap : List (α × ℕ)}
    (hpop : popMin (fun x => key x.1) m.heap = some ((a, i), heap)) :
    ∀ b ∈ pending m ls, key a ≤ key b := by
  obtain ⟨hperm, hmin⟩ := popMin_spec hpop
  have hheap : ∀ x ∈ m.heap, key a ≤ key x.1 := by
    intro x hx
    rcases List.mem_cons.mp (hperm.mem_iff.mp hx) with rfl | hx
    · exact le_rfl
    · exact hmin x hx
  intro b hb
  rcases List.mem_append.mp hb with hb | hb
  · obtain ⟨x, hx, rfl⟩ := List.mem_map.mp hb
    exact hheap x hx
  · obtain ⟨l, hl, hbl⟩ := List.mem_flatten.mp hb
    obtain ⟨j, hj⟩ := List.mem_iff_getElem?.mp hl
    obtain ⟨x, hx, hle⟩ := h.front j l hj b hbl
    exact le_trans (hheap _ hx) hle

/-- The element is taken off and its run goes on. -/
lemma Inv.set (h : Inv key read m ls) {a : α} {i : ℕ} {heap heap' : List (α × ℕ)} {o : Option ρ}
    {k : List α} (hperm : m.heap.Perm ((a, i) :: heap))
    (hholds : Holds read o k) (hsorted : k.Pairwise fun a b => key a ≤ key b)
    (hsub : ∀ x ∈ heap, x ∈ heap') (hrange : ∀ x ∈ heap', x.2 < m.readers.length)
    (hfront : ∀ b ∈ k, ∃ a, (a, i) ∈ heap' ∧ key a ≤ key b) :
    Inv key read ⟨m.readers.set i o, heap'⟩ (ls.set i k) where
  length := by simp [h.length]
  holds := by
    intro j r q hr hq
    rw [List.getElem?_set] at hr hq
    rw [h.length] at hq
    split_ifs at hr hq with hij hi
    · cases hr
      cases hq
      exact hholds
    · exact h.holds j r q hr hq
  sorted := by
    intro q hq
    rcases List.mem_or_eq_of_mem_set hq with hq | rfl
    · exact h.sorted q hq
    · exact hsorted
  front := by
    intro j q hq b hb
    rw [List.getElem?_set] at hq
    split_ifs at hq with hij hi
    · cases hq
      subst hij
      exact hfront b hb
    · -- the heap still has what it had of the other runs
      obtain ⟨x, hx, hle⟩ := h.front j q hq b hb
      rcases List.mem_cons.mp (hperm.mem_iff.mp hx) with hx | hx
      · exact absurd (congrArg Prod.snd hx).symm hij
      · exact ⟨x, hsub _ hx, hle⟩
  inRange := by
    intro x hx
    simpa using hrange x hx

lemma step_next (h : Inv key read m ls) :
    (next key read m = some none ∧ pending m ls = []) ∨
      ∃ a m' ls', next key read m = some (some (a, m')) ∧ Inv key read m' ls' ∧
        (pending m ls).Perm (a :: pending m' ls') ∧ ∀ b ∈ pending m' ls', key a ≤ key b := by
  rcases hpop : popMin (fun x => key x.1) m.heap with _ | ⟨⟨a, i⟩, heap⟩
  · -- nothing on the heap, so that no reader has anything
    left
    have hnil := popMin_eq_none hpop
    refine ⟨by simp only [next, hpop], ?_⟩
    rw [pending, hnil, List.map_nil, List.nil_append, List.flatten_eq_nil_iff]
    intro l hl
    obtain ⟨i, hi⟩ := List.mem_iff_getElem?.mp hl
    refine List.eq_nil_iff_forall_not_mem.mpr fun b hb => ?_
    obtain ⟨x, hx, -⟩ := h.front i l hi b hb
    rw [hnil] at hx
    cases hx
  · right
    obtain ⟨hperm, -⟩ := popMin_spec hpop
    have hleast := popMin_le_pending h hpop
    have hi : i < m.readers.length := h.inRange (a, i) (hperm.mem_iff.mpr List.mem_cons_self)
    have hrange : ∀ x ∈ heap, x.2 < m.readers.length := fun x hx =>
      h.inRange x (hperm.mem_iff.mpr (List.mem_cons_of_mem _ hx))
    obtain ⟨o, ho⟩ : ∃ o, m.readers[i]? = some o := ⟨_, List.getElem?_eq_getElem hi⟩
    obtain ⟨l, hl⟩ : ∃ l, ls[i]? = some l := ⟨_, List.getElem?_eq_getElem (h.length ▸ hi)⟩
    have hheap : (pending m ls).Perm (a :: (heap.map Prod.fst ++ ls.flatten)) :=
      (hperm.map Prod.fst).append_right _
    have hlater : ∀ {m' : Merge α ρ} {ls'}, (pending m ls).Perm (a :: pending m' ls') →
        ∀ b ∈ pending m' ls', key a ≤ key b := fun hp b hb =>
      hleast b (hp.mem_iff.mpr (List.mem_cons_of_mem _ hb))
    have hholds := h.holds i o l ho hl
    -- a run that is at its end leaves the others as they are
    have hdone : l = [] → Inv key read ⟨m.readers.set i none, heap⟩ ls := by
      rintro rfl
      have hinv := h.set (k := []) (o := none) hperm rfl List.Pairwise.nil (fun _ hx => hx) hrange
        fun b hb => (List.not_mem_nil hb).elim
      rwa [set_of_getElem? hl] at hinv
    cases o with
    | none =>
      refine ⟨a, ⟨m.readers, heap⟩, ls, by simp only [next, hpop, ho], ?_, hheap, hlater hheap⟩
      have hinv := hdone hholds
      rwa [set_of_getElem? ho] at hinv
    | some r =>
      cases hholds with
      | done hread =>
        exact ⟨a, ⟨m.readers.set i none, heap⟩, ls, by simp only [next, hpop, ho, hread], hdone rfl,
          hheap, hlater hheap⟩
      | @step _ r' b bs hread htail =>
        obtain ⟨hhead, htailSorted⟩ := List.pairwise_cons.mp (h.sorted _ (List.mem_of_getElem? hl))
        have hp : (pending m ls).Perm
            (a :: pending ⟨m.readers.set i (some r'), (b, i) :: heap⟩ (ls.set i bs)) := by
          refine hheap.trans (List.Perm.cons a ?_)
          exact ((perm_flatten_set hl).append_left _).trans List.perm_middle
        refine ⟨a, ⟨m.readers.set i (some r'), (b, i) :: heap⟩, ls.set i bs,
          by simp only [next, hpop, ho, hread], ?_, hp, hlater hp⟩
        refine h.set hperm htail htailSorted (fun _ hx => List.mem_cons_of_mem _ hx) ?_
          fun x hx => ⟨b, List.mem_cons_self, hhead x hx⟩
        intro x hx
        rcases List.mem_cons.mp hx with rfl | hx
        · exact hi
        · exact hrange x hx

lemma run_collect (h : Inv key read m ls) {fuel : ℕ} (hfuel : (pending m ls).length < fuel) :
    ∃ out, collect key read fuel m = some out ∧ out.Perm (pending m ls) ∧
      out.Pairwise fun a b => key a ≤ key b := by
  induction fuel generalizing m ls with
  | zero => omega
  | succ fuel ih =>
    rcases step_next h with ⟨hend, hnil⟩ | ⟨a, m', ls', hnext, h', hperm, hle⟩
    · refine ⟨[], by simp only [collect, hend], ?_, List.Pairwise.nil⟩
      rw [hnil]
    · have hlen := hperm.length_eq
      rw [List.length_cons] at hlen
      obtain ⟨out, hout, hp, hs⟩ := ih h' (by omega)
      refine ⟨a :: out, by simp only [collect, hnext, hout, Option.map_some], ?_, ?_⟩
      · exact (hp.cons a).trans hperm.symm
      · exact List.pairwise_cons.mpr ⟨fun b hb => hle b (hp.mem_iff.mp hb), hs⟩

/-- **The merge of sorted runs is sorted and has every element once.** -/
theorem collect_start {runs : List ρ} {lists : List (List α)}
    (hp : List.Forall₂ (Produces read) runs lists)
    (hsorted : ∀ l ∈ lists, l.Pairwise fun a b => key a ≤ key b) :
    ∃ m, start read runs = some m ∧ ∀ fuel, lists.flatten.length < fuel →
      ∃ out, collect key read fuel m = some out ∧ out.Perm lists.flatten ∧
        out.Pairwise fun a b => key a ≤ key b := by
  obtain ⟨m, ls, hstart, h, hperm⟩ := run_openRun inv_empty hp hsorted
  refine ⟨m, hstart, fun fuel hfuel => ?_⟩
  have hperm' : (pending m ls).Perm lists.flatten := hperm
  obtain ⟨out, hout, hp', hs⟩ := run_collect h (hperm'.length_eq ▸ hfuel)
  exact ⟨out, hout, hp'.trans hperm', hs⟩

end Proofs

end OsmParquet.RunMerge
