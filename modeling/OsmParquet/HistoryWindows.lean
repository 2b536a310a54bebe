import OsmParquet.Snapshots

/-!
The ends that compaction gives the rows of the history.

A file that is rewritten has every row with the start of the next row of the same element as its
end. The rows are put in order for that by a window. A read that finds several rows that start
together prefers the visible ones, and the window puts the invisible ones last, where they end the
others. So a read of the file stays the same exactly if it has no such rows.
-/

namespace OsmParquet.HistoryWindows

open OsmParquet.KeyedList OsmParquet.Rows OsmParquet.Tiers OsmParquet.HistoryTiers
open OsmParquet.Timeline OsmParquet.Snapshots

variable {α : Type}

/-! ### The ends -/

/-- A column as it is compared when NULL is the greatest value. -/
def nullGreatest (x : Option ℤ) : WithTop ℤ := x

/-- What compaction orders the rows of an element by. In ascending order NULL comes last too. -/
abbrev WindowKey := WithTop ℤ ×ₗ Bool ×ₗ WithTop ℤ ×ₗ ℤ

def windowKey (r : HistoryRow α) : WindowKey :=
  toLex (nullGreatest r.validFrom, toLex (!r.visible, toLex (nullGreatest r.version, r.minor)))

/-- The start of a row; one without never starts. -/
def startOf (r : HistoryRow α) : WithTop ℤ := nullGreatest r.validFrom

section Windows

variable {κ : Type} [LinearOrder κ] (key : HistoryRow α → κ)

/-- The rows of an element in the order of a window; rows that tie stay in the order they are in. -/
def window (i : ℤ) (rows : List (HistoryRow α)) : List (HistoryRow α) :=
  (rows.filter fun r => r.id = i).insertionSort fun a b => key a ≤ key b

/-- The rows with the start of the next row of the same element as their end. -/
def leadValidTo (rows : List (HistoryRow α)) : List (HistoryRow α) :=
  (rows.map HistoryRow.id).dedup.flatMap fun i =>
    (leads startOf (window key i rows)).map fun p => { p.1 with validTo := p.2 }

/-- The window has the rows in the order of their starts. -/
def ByStart : Prop := ∀ a b : HistoryRow α, key a ≤ key b → startOf a ≤ startOf b

/-- The row that an element has at a time once the ends are filled in. -/
def survivor (t i : ℤ) (rows : List (HistoryRow α)) : Option (HistoryRow α) :=
  ((window key i rows).filter (validityPredicate t false)).getLast?

end Windows

section Lead

variable {κ : Type} [LinearOrder κ] {key : HistoryRow α → κ}
variable {rows : List (HistoryRow α)} {r : HistoryRow α} {i t : ℤ}

lemma byStart_startOf : ByStart (startOf (α := α)) := fun _ _ h => h

lemma byStart_windowKey : ByStart (windowKey (α := α)) := by
  intro a b h
  rcases Prod.Lex.le_iff.mp h with hlt | ⟨heq, -⟩
  · exact hlt.le
  · exact heq.le

lemma mem_window {x : HistoryRow α} : x ∈ window key i rows ↔ x ∈ rows ∧ x.id = i := by
  simp [window]

lemma map_fst_leads (l : List (HistoryRow α)) : (leads startOf l).map Prod.fst = l := by
  induction l with
  | nil => rfl
  | cons r l ih =>
    cases l with
    | nil => rfl
    | cons r' l =>
      rw [leads, List.map_cons, ih]

lemma mem_of_mem_leads {l : List (HistoryRow α)} {p : HistoryRow α × WithTop ℤ}
    (h : p ∈ leads startOf l) : p.1 ∈ l := by
  have hmem := List.mem_map_of_mem (f := Prod.fst) h
  rw [map_fst_leads] at hmem
  exact hmem

lemma mem_leadValidTo : r ∈ leadValidTo key rows ↔
    ∃ p ∈ leads startOf (window key r.id rows), { p.1 with validTo := p.2 } = r := by
  simp only [leadValidTo, List.mem_flatMap, List.mem_dedup, List.mem_map]
  refine ⟨?_, ?_⟩
  · rintro ⟨i, -, p, hp, rfl⟩
    have hid : p.1.id = i := (mem_window.mp (mem_of_mem_leads hp)).2
    exact ⟨p, by simpa [hid] using hp, rfl⟩
  · rintro ⟨p, hp, hr⟩
    have hw := mem_window.mp (mem_of_mem_leads hp)
    exact ⟨r.id, ⟨p.1, hw.1, hw.2⟩, p, hp, hr⟩

lemma strip_mem_of_lead (h : r ∈ leadValidTo key rows) : ∃ x ∈ rows, strip x = strip r := by
  obtain ⟨p, hp, rfl⟩ := mem_leadValidTo.mp h
  exact ⟨p.1, (mem_window.mp (mem_of_mem_leads hp)).1, rfl⟩

lemma started_iff : validityPredicate t false r = true ↔ startOf r ≤ (t : WithTop ℤ) := by
  rw [validityPredicate_false, startOf, nullGreatest]
  rcases r.validFrom with _ | x
  · exact iff_of_false (by simp) (not_le.mpr (WithTop.coe_lt_top t))
  · refine Iff.trans ⟨?_, fun h => ⟨x, rfl, h⟩⟩ WithTop.coe_le_coe.symm
    rintro ⟨y, hy, hle⟩
    cases hy
    exact hle

lemma runs_iff {p : HistoryRow α × WithTop ℤ} :
    Runs startOf t p ↔ validityPredicate t true { p.1 with validTo := p.2 } = true := by
  rw [validityPredicate_true, started_iff]
  refine and_congr Iff.rfl ?_
  obtain ⟨x, e⟩ := p
  rcases e with _ | e
  · exact iff_of_true (WithTop.coe_lt_top t) (by simp)
  · refine WithTop.coe_lt_coe.trans ⟨?_, fun h => h e rfl⟩
    intro h x hx
    cases hx
    exact h

lemma pairwise_window (key : HistoryRow α → κ) (i : ℤ) (rows : List (HistoryRow α)) :
    (window key i rows).Pairwise fun a b => key a ≤ key b :=
  have : Std.Total fun a b : HistoryRow α => key a ≤ key b := ⟨fun _ _ => le_total _ _⟩
  have : IsTrans (HistoryRow α) fun a b => key a ≤ key b := ⟨fun _ _ _ => le_trans⟩
  List.pairwise_insertionSort _ _

lemma runs_window (hk : ByStart key) :
    ((leads startOf (window key i rows)).filter fun p => Runs startOf t p).map Prod.fst =
      (survivor key t i rows).toList := by
  rw [runs_leads ((pairwise_window key i rows).imp (hk _ _)), survivor]
  congr 3
  ext r
  rw [Bool.eq_iff_iff, decide_eq_true_eq]
  exact started_iff.symm

lemma survivor_of_valid (hk : ByStart key) (h : r ∈ leadValidTo key rows)
    (hv : validityPredicate t true r = true) :
    ∃ x, survivor key t r.id rows = some x ∧ strip x = strip r := by
  obtain ⟨p, hp, hr⟩ := mem_leadValidTo.mp h
  have hruns : Runs startOf t p := runs_iff.mpr (by rw [hr]; exact hv)
  have hmem : p.1 ∈ (survivor key t r.id rows).toList := by
    rw [← runs_window hk]
    exact List.mem_map_of_mem (List.mem_filter.mpr ⟨hp, by simpa using hruns⟩)
  refine ⟨p.1, Option.mem_toList.mp hmem, ?_⟩
  rw [← hr]
  rfl

lemma valid_of_survivor (hk : ByStart key) {x : HistoryRow α} (h : survivor key t i rows = some x) :
    ∃ r ∈ leadValidTo key rows, r.id = i ∧ validityPredicate t true r = true ∧
      strip r = strip x := by
  have hmem : x ∈ ((leads startOf (window key i rows)).filter fun p => Runs startOf t p).map
      Prod.fst := by
    rw [runs_window hk, h]
    exact List.mem_singleton_self x
  obtain ⟨p, hp, rfl⟩ := List.mem_map.mp hmem
  obtain ⟨hl, hruns⟩ := List.mem_filter.mp hp
  have hid := (mem_window.mp (mem_of_mem_leads hl)).2
  refine ⟨{ p.1 with validTo := p.2 }, mem_leadValidTo.mpr ⟨p, ?_, rfl⟩, hid, ?_, rfl⟩
  · simpa [hid] using hl
  · exact runs_iff.mp (by simpa using hruns)

/-- The survivor is the last in the order of the window of the rows that have started. -/
lemma survivor_spec {x : HistoryRow α} (h : survivor key t i rows = some x) :
    (x ∈ rows ∧ x.id = i ∧ validityPredicate t false x = true) ∧
      ∀ r ∈ rows, r.id = i → validityPredicate t false r = true → key r ≤ key x := by
  have hx := List.mem_of_getLast? h
  obtain ⟨hw, hs⟩ := List.mem_filter.mp hx
  obtain ⟨hmem, hid⟩ := mem_window.mp hw
  refine ⟨⟨hmem, hid, hs⟩, fun r hr hri hrs => ?_⟩
  have hr' : r ∈ (window key i rows).filter (validityPredicate t false) :=
    List.mem_filter.mpr ⟨mem_window.mpr ⟨hr, hri⟩, hrs⟩
  have hsorted := (pairwise_window key i rows).filter (validityPredicate t false)
  obtain ⟨l, hl⟩ := List.getLast?_eq_some_iff.mp h
  rw [hl] at hr' hsorted
  rcases List.mem_append.mp hr' with hin | hlast
  · exact (List.pairwise_append.mp hsorted).2.2 r hin x (List.mem_singleton_self x)
  · rw [List.mem_singleton.mp hlast]

lemma survivor_of_started (key : HistoryRow α → κ) (hr : r ∈ rows)
    (hs : validityPredicate t false r = true) : ∃ x, survivor key t r.id rows = some x := by
  have hmem : r ∈ (window key r.id rows).filter (validityPredicate t false) :=
    List.mem_filter.mpr ⟨mem_window.mpr ⟨hr, rfl⟩, hs⟩
  exact ⟨_, List.getLast?_eq_some_getLast (List.ne_nil_of_mem hmem)⟩

end Lead

/-! ### Rows that start together -/

/-- Of two rows that start together, a read prefers `a` and the window has `b` later. -/
def Outranks (a b : HistoryRow α) : Prop :=
  a.visible = true ∧ b.visible = false ∨
    a.visible = b.visible ∧ a.version.isSome ∧ b.version = none

instance (a b : HistoryRow α) : Decidable (Outranks a b) :=
  inferInstanceAs (Decidable (a.visible = true ∧ b.visible = false ∨
    a.visible = b.visible ∧ a.version.isSome ∧ b.version = none))

section Order

variable {a b s : HistoryRow α} {x : ℤ}

lemma version_le (hv : ¬ (a.version.isSome ∧ b.version = none))
    (h : toLex (nullGreatest a.version, a.minor) ≤ toLex (nullGreatest b.version, b.minor)) :
    toLex (nullLeast a.version, a.minor) ≤ toLex (nullLeast b.version, b.minor) := by
  revert hv h
  rcases a.version with _ | v <;> rcases b.version with _ | w <;> intro hv h
  · rcases Prod.Lex.le_iff.mp h with hlt | ⟨-, hle⟩
    · exact absurd hlt (lt_irrefl _)
    · exact Prod.Lex.le_iff.mpr (Or.inr ⟨rfl, hle⟩)
  · exact Prod.Lex.le_iff.mpr (Or.inl (WithBot.bot_lt_coe w))
  · exact absurd ⟨rfl, rfl⟩ hv
  · rcases Prod.Lex.le_iff.mp h with hlt | ⟨heq, hle⟩
    · exact Prod.Lex.le_iff.mpr (Or.inl (WithBot.coe_lt_coe.mpr (WithTop.coe_lt_coe.mp hlt)))
    · have hvw : v = w := WithTop.coe_injective heq
      exact Prod.Lex.le_iff.mpr (Or.inr ⟨congrArg WithBot.some hvw, hle⟩)

/-- A row that does not outrank a later one in the window comes after it in a read. -/
lemma stateKey_le (ha : a.validFrom.isSome) (hb : b.validFrom.isSome)
    (hrank : b.validFrom = a.validFrom → ¬ Outranks a b) (h : windowKey a ≤ windowKey b) :
    stateKey a ≤ stateKey b := by
  obtain ⟨x, hx⟩ := Option.isSome_iff_exists.mp ha
  obtain ⟨y, hy⟩ := Option.isSome_iff_exists.mp hb
  rw [windowKey, windowKey, hx, hy] at h
  rw [stateKey, stateKey, hx, hy]
  rcases Prod.Lex.le_iff.mp h with hlt | ⟨heq, hrest⟩
  · exact Prod.Lex.le_iff.mpr (Or.inl (WithBot.coe_lt_coe.mpr (WithTop.coe_lt_coe.mp hlt)))
  · have hxy : x = y := WithTop.coe_injective heq
    have hnot := hrank (by rw [hx, hy, hxy])
    refine Prod.Lex.le_iff.mpr (Or.inr ⟨congrArg WithBot.some hxy, ?_⟩)
    rcases Prod.Lex.le_iff.mp hrest with hlt | ⟨hvis, hle⟩
    · obtain ⟨hva, hvb⟩ := Bool.lt_iff.mp hlt
      exact absurd (Or.inl ⟨by simpa using hva, by simpa using hvb⟩) hnot
    · have hvis' : a.visible = b.visible := Bool.not_inj hvis
      exact Prod.Lex.le_iff.mpr (Or.inr ⟨hvis',
        version_le (fun hv => hnot (Or.inr ⟨hvis', hv⟩)) hle⟩)

/-- Rows that start together, of which one is visible and the other not. -/
lemma lt_of_visible (ha : a.validFrom = b.validFrom) (hva : a.visible = false)
    (hvb : b.visible = true) : stateKey a < stateKey b := by
  refine Prod.Lex.lt_iff.mpr (Or.inr ⟨congrArg nullLeast ha, Prod.Lex.lt_iff.mpr (Or.inl ?_)⟩)
  change a.visible < b.visible
  rw [hva, hvb]
  decide

/-- Rows that start together, of which one has a version and the other not. -/
lemma lt_of_version (ha : a.validFrom = b.validFrom) (hv : a.visible = b.visible)
    (hva : a.version = none) (hvb : b.version.isSome) : stateKey a < stateKey b := by
  obtain ⟨v, hvb⟩ := Option.isSome_iff_exists.mp hvb
  refine Prod.Lex.lt_iff.mpr (Or.inr ⟨congrArg nullLeast ha, Prod.Lex.lt_iff.mpr (Or.inr ⟨hv, ?_⟩)⟩)
  refine Prod.Lex.lt_iff.mpr (Or.inl ?_)
  change nullLeast a.version < nullLeast b.version
  rw [hva, hvb]
  exact WithBot.bot_lt_coe v

lemma visible_of_window (hab : a.validFrom = b.validFrom) (h : windowKey a ≤ windowKey b)
    (ha : a.visible = false) : b.visible = false := by
  rcases Prod.Lex.le_iff.mp h with hlt | ⟨-, hrest⟩
  · exact absurd (congrArg nullGreatest hab) hlt.ne
  · have hle : (!a.visible) ≤ !b.visible := by
      rcases Prod.Lex.le_iff.mp hrest with hlt | ⟨heq, -⟩
      · exact hlt.le
      · exact heq.le
    rw [ha] at hle
    cases hb : b.visible
    · rfl
    · rw [hb] at hle
      exact absurd hle (by decide)

lemma version_of_window (hab : a.validFrom = b.validFrom) (hv : a.visible = b.visible)
    (h : windowKey a ≤ windowKey b) (ha : a.version = none) : b.version = none := by
  rcases Prod.Lex.le_iff.mp h with hlt | ⟨-, hrest⟩
  · exact absurd (congrArg nullGreatest hab) hlt.ne
  rcases Prod.Lex.le_iff.mp hrest with hlt | ⟨-, hlast⟩
  · exact absurd (congrArg not hv) hlt.ne
  · have hle : nullGreatest a.version ≤ nullGreatest b.version := by
      rcases Prod.Lex.le_iff.mp hlast with hlt | ⟨heq, -⟩
      · exact hlt.le
      · exact heq.le
    rw [ha] at hle
    exact WithTop.top_le_iff.mp hle

/-- What outranks a row wins against the last of those that start with it. -/
lemma Outranks.wins (h : Outranks a b) (ha : a.validFrom = s.validFrom)
    (hb : b.validFrom = s.validFrom) (has : windowKey a ≤ windowKey s)
    (hbs : windowKey b ≤ windowKey s) : stateKey s < stateKey a := by
  rcases h with ⟨hva, hvb⟩ | ⟨hvis, hver, hnone⟩
  · exact lt_of_visible ha.symm (visible_of_window hb hbs hvb) hva
  · by_cases hs : a.visible = s.visible
    · exact lt_of_version ha.symm hs.symm (version_of_window hb (hvis.symm.trans hs) hbs hnone) hver
    · rcases hva : a.visible with _ | _
      · exact absurd (hva.trans (visible_of_window ha has hva).symm) hs
      · rw [hva] at hs
        exact lt_of_visible ha.symm (Bool.eq_false_iff.mpr (Ne.symm hs)) hva

end Order

/-! ### What a rewrite keeps -/

/-- Of the rows of an element that start at `x`, the one that compaction has last. -/
def lastOf (i x : ℤ) (rows : List (HistoryRow α)) : Option (HistoryRow α) :=
  ((window windowKey i rows).filter fun r => r.validFrom = some x).getLast?

section Rewrites

variable (base tiers : List (HistoryRow α))

/-- The row is shown from its start on: it is in a tier, or its end is later. -/
def Shown (a : HistoryRow α) : Prop :=
  a ∈ tiers ∨ a ∈ base ∧ ∀ x ∈ a.validFrom, ∀ e ∈ a.validTo, x < e

/-- The row is shown until a later row of the element starts: it is in a tier, or it has no end, or
a later row has started by its end. -/
def Kept (a : HistoryRow α) : Prop :=
  (∃ r ∈ tiers, strip r = strip a) ∨ ∃ r ∈ base, strip r = strip a ∧
    ∀ e ∈ r.validTo, ∃ b ∈ base ++ tiers, b.id = a.id ∧
      ∃ y ∈ b.validFrom, y ≤ e ∧ ∀ x ∈ a.validFrom, x < y

/-- The rows of a file that is rewritten, old ones and those of the tiers, lose nothing: of those of
an element that start together, the last is kept, and none that is shown outranks another. -/
structure Lossless : Prop where
  kept : ∀ r ∈ base ++ tiers, ∀ x ∈ r.validFrom, ∀ a ∈ lastOf r.id x (base ++ tiers),
    Kept base tiers a
  ranked : ∀ a ∈ base ++ tiers, ∀ b ∈ base ++ tiers, b.id = a.id → a.validFrom.isSome →
    b.validFrom = a.validFrom → Shown base tiers a → ¬ Outranks a b

variable [DecidableEq α]

instance (a : HistoryRow α) : Decidable (Shown base tiers a) :=
  inferInstanceAs (Decidable (a ∈ tiers ∨ a ∈ base ∧ ∀ x ∈ a.validFrom, ∀ e ∈ a.validTo, x < e))

instance (a : HistoryRow α) : Decidable (Kept base tiers a) :=
  inferInstanceAs (Decidable ((∃ r ∈ tiers, strip r = strip a) ∨ ∃ r ∈ base, strip r = strip a ∧
    ∀ e ∈ r.validTo, ∃ b ∈ base ++ tiers, b.id = a.id ∧
      ∃ y ∈ b.validFrom, y ≤ e ∧ ∀ x ∈ a.validFrom, x < y))

instance : Decidable (Lossless base tiers) :=
  decidable_of_iff ((∀ r ∈ base ++ tiers, ∀ x ∈ r.validFrom, ∀ a ∈ lastOf r.id x (base ++ tiers),
      Kept base tiers a) ∧
    ∀ a ∈ base ++ tiers, ∀ b ∈ base ++ tiers, b.id = a.id → a.validFrom.isSome →
      b.validFrom = a.validFrom → Shown base tiers a → ¬ Outranks a b)
    ⟨fun h => ⟨h.1, h.2⟩, fun h => ⟨h.kept, h.ranked⟩⟩

end Rewrites

/-! ### What a read finds -/

/-- A read of `b` may choose only what a read of `a` may choose, up to the ends of the rows, and
finds something if that does. -/
structure SameAnswers (a b : List (HistoryRow α)) : Prop where
  chosen : ∀ r, StateAt b r → ∃ x, StateAt a x ∧ strip x = strip r
  found : a ≠ [] → b ≠ []

section Answers

variable {a b base tiers rows : List (HistoryRow α)} {t i : ℤ}

lemma startsSome {r : HistoryRow α} (h : validityPredicate t false r = true) :
    r.validFrom.isSome := by
  obtain ⟨x, hx, -⟩ := validityPredicate_false.mp h
  rw [hx]
  rfl

/-- Once the ends are filled in, a read chooses what survives. -/
lemma stateAt_lead {x : HistoryRow α} (h : survivor windowKey t i rows = some x) :
    ∃ r, StateAt (candidates t i (leadValidTo windowKey rows) []) r ∧ strip r = strip x := by
  obtain ⟨r, hr, hri, hrv, hrx⟩ := valid_of_survivor byStart_windowKey h
  refine ⟨r, ⟨mem_candidates.mpr ⟨hri, Or.inl ⟨hr, hrv⟩⟩, fun y hy => ?_⟩, hrx⟩
  obtain ⟨rfl, ⟨hyl, hyv⟩ | ⟨hyn, -⟩⟩ := mem_candidates.mp hy
  · obtain ⟨x', hx', hstrip⟩ := survivor_of_valid byStart_windowKey hyl hyv
    rw [h, Option.some.injEq] at hx'
    rw [← stateKey_strip y, ← hstrip, ← hx', ← stateKey_strip r, hrx]
  · cases hyn

/-- A read stays the same if it chooses what survives. -/
lemma sameAnswers_iff : SameAnswers (candidates t i base tiers)
      (candidates t i (leadValidTo windowKey (base ++ tiers)) []) ↔
    ∀ s, survivor windowKey t i (base ++ tiers) = some s →
      ∃ x, StateAt (candidates t i base tiers) x ∧ strip x = strip s := by
  refine ⟨fun h s hs => ?_, fun h => ⟨fun r hr => ?_, fun hne => ?_⟩⟩
  · obtain ⟨r, hr, hrs⟩ := stateAt_lead hs
    obtain ⟨x, hx, hxr⟩ := h.chosen r hr
    exact ⟨x, hx, hxr.trans hrs⟩
  · obtain ⟨rfl, ⟨hl, hv⟩ | ⟨hn, -⟩⟩ := mem_candidates.mp hr.1
    · obtain ⟨s, hs, hsr⟩ := survivor_of_valid byStart_windowKey hl hv
      obtain ⟨x, hx, hxs⟩ := h s hs
      exact ⟨x, hx, hxs.trans hsr⟩
    · cases hn
  · obtain ⟨y, hy⟩ := List.exists_mem_of_ne_nil _ hne
    obtain ⟨hmem, rfl, hstart⟩ := mem_startedRows.mp (startedRows_of_candidates hy)
    obtain ⟨s, hs⟩ := survivor_of_started windowKey hmem hstart
    obtain ⟨r, hr, hrid, hrv, -⟩ := valid_of_survivor byStart_windowKey hs
    exact List.ne_nil_of_mem (mem_candidates.mpr ⟨hrid, Or.inl ⟨hr, hrv⟩⟩)

/-- What survives is the last of the rows that start with it. -/
lemma lastOf_survivor {s : HistoryRow α} {x : ℤ} (h : survivor windowKey t i rows = some s)
    (hx : s.validFrom = some x) : lastOf i x rows = some s := by
  obtain ⟨y, hy, hyt⟩ := validityPredicate_false.mp (survivor_spec h).1.2.2
  obtain ⟨l, hl⟩ := List.getLast?_eq_some_iff.mp h
  have hsub : (window windowKey i rows).filter (fun r => r.validFrom = some x) =
      ((window windowKey i rows).filter (validityPredicate t false)).filter fun r =>
        r.validFrom = some x := by
    rw [List.filter_filter]
    refine List.filter_congr fun r _ => ?_
    by_cases hr : r.validFrom = some x
    · have hstart : validityPredicate t false r = true :=
        validityPredicate_false.mpr ⟨y, hr.trans (hx.symm.trans hy), hyt⟩
      simp [hr, hstart]
    · simp [hr]
  rw [lastOf, hsub, hl, List.filter_append, List.filter_singleton, hx]
  simp

lemma started_congr {r s : HistoryRow α} (h : strip r = strip s) :
    validityPredicate t false r = validityPredicate t false s := by
  have hfrom : r.validFrom = s.validFrom := congrArg (fun r => r.validFrom) h
  rw [validityPredicate, validityPredicate, hfrom]
  rfl

/-- What survives is among the rows that a read before chooses from. -/
lemma Lossless.survives {s : HistoryRow α} (h : Lossless base tiers)
    (hs : survivor windowKey t i (base ++ tiers) = some s) :
    ∃ r ∈ candidates t i base tiers, strip r = strip s := by
  obtain ⟨⟨hmem, rfl, hstart⟩, hlast⟩ := survivor_spec hs
  obtain ⟨x, hx, -⟩ := validityPredicate_false.mp hstart
  rcases h.kept s hmem x hx s (lastOf_survivor hs hx) with ⟨r, hr, hrs⟩ | ⟨r, hr, hrs, hend⟩
  · exact ⟨r, mem_candidates.mpr ⟨congrArg (fun r => r.id) hrs,
      Or.inr ⟨hr, (started_congr hrs).trans hstart⟩⟩, hrs⟩
  · refine ⟨r, mem_candidates.mpr ⟨congrArg (fun r => r.id) hrs, Or.inl ⟨hr, ?_⟩⟩, hrs⟩
    refine validityPredicate_true.mpr ⟨(started_congr hrs).trans hstart, fun e he => ?_⟩
    obtain ⟨b, hb, hbid, y, hy, hye, hlater⟩ := hend e he
    by_contra hte
    -- the later row has started too, and comes after the survivor
    have hbt : validityPredicate t false b = true :=
      validityPredicate_false.mpr ⟨y, hy, hye.trans (not_lt.mp hte)⟩
    have hle := byStart_windowKey b s (hlast b hb hbid hbt)
    rw [startOf, startOf, Option.mem_def.mp hy, hx] at hle
    exact absurd (WithTop.coe_le_coe.mp hle) (not_le.mpr (hlater x hx))

lemma shown_of_candidate {a : HistoryRow α} (h : a ∈ candidates t i base tiers) :
    Shown base tiers a := by
  obtain ⟨-, ⟨hb, hv⟩ | ⟨ht, -⟩⟩ := mem_candidates.mp h
  · obtain ⟨hstart, hend⟩ := validityPredicate_true.mp hv
    obtain ⟨y, hy, hyt⟩ := validityPredicate_false.mp hstart
    refine Or.inr ⟨hb, fun x hx e he => ?_⟩
    rw [Option.mem_def.mp hx, Option.some.injEq] at hy
    exact (hy.trans_le hyt).trans_lt (hend e he)
  · exact Or.inl ht

lemma candidate_of_shown {a : HistoryRow α} (h : Shown base tiers a) (ht : a.validFrom = some t) :
    a ∈ candidates t a.id base tiers := by
  have hstart : validityPredicate t false a = true := validityPredicate_false.mpr ⟨t, ht, le_rfl⟩
  refine mem_candidates.mpr ⟨rfl, ?_⟩
  rcases h with htier | ⟨hb, hlt⟩
  · exact Or.inr ⟨htier, hstart⟩
  · exact Or.inl ⟨hb, validityPredicate_true.mpr ⟨hstart, fun e he => hlt t ht e he⟩⟩

/-- **A file that loses nothing**: what survives is what a read before chooses. -/
lemma Lossless.stateAt {s : HistoryRow α} (h : Lossless base tiers)
    (hs : survivor windowKey t i (base ++ tiers) = some s) :
    ∃ x, StateAt (candidates t i base tiers) x ∧ strip x = strip s := by
  obtain ⟨r, hr, hrs⟩ := h.survives hs
  obtain ⟨⟨hmem, hid, hstart⟩, hlast⟩ := survivor_spec hs
  refine ⟨r, ⟨hr, fun y hy => ?_⟩, hrs⟩
  obtain ⟨hymem, hyid, hystart⟩ := mem_startedRows.mp (startedRows_of_candidates hy)
  rw [← stateKey_strip r, hrs, stateKey_strip]
  refine stateKey_le (startsSome hystart) (startsSome hstart) (fun hsame => ?_)
    (hlast y hymem hyid hystart)
  exact h.ranked y hymem s hmem (hid.trans hyid.symm) (startsSome hystart) hsame
    (shown_of_candidate hy)

/-- What survives at the start of a row starts with it. -/
lemma validFrom_survivor {r x : HistoryRow α} (h : survivor windowKey t i rows = some x)
    (hr : windowKey r ≤ windowKey x) (ht : r.validFrom = some t) : x.validFrom = some t := by
  obtain ⟨y, hy, hyt⟩ := validityPredicate_false.mp (survivor_spec h).1.2.2
  have hle : startOf r ≤ startOf x := byStart_windowKey _ _ hr
  rw [startOf, startOf, ht, hy] at hle
  have hty : t ≤ y := WithTop.coe_le_coe.mp hle
  rw [hy, le_antisymm hyt hty]

/-- A time from `x` on at which some rows have ended and none of the later times has come. -/
lemma exists_instant {l : List (HistoryRow α)} {p : HistoryRow α → Prop} {q : ℤ → Prop} {x : ℤ}
    (hx : ∀ y, q y → x < y) (hl : ∀ r ∈ l, p r → ∃ e, r.validTo = some e ∧ ∀ y, q y → e < y) :
    ∃ t, x ≤ t ∧ (∀ r ∈ l, p r → ∃ e, r.validTo = some e ∧ e ≤ t) ∧ ∀ y, q y → t < y := by
  induction l with
  | nil => exact ⟨x, le_rfl, by simp, hx⟩
  | cons r l ih =>
    obtain ⟨t, hxt, hends, hlater⟩ := ih fun z hz => hl z (List.mem_cons_of_mem _ hz)
    by_cases hr : p r
    · obtain ⟨e, he, hbefore⟩ := hl r List.mem_cons_self hr
      refine ⟨max t e, hxt.trans (le_max_left _ _), fun z hz hpz => ?_, fun y hy =>
        max_lt (hlater y hy) (hbefore y hy)⟩
      rcases List.mem_cons.mp hz with rfl | hz
      · exact ⟨e, he, le_max_right _ _⟩
      · obtain ⟨e', he', hle⟩ := hends z hz hpz
        exact ⟨e', he', hle.trans (le_max_left _ _)⟩
    · refine ⟨t, hxt, fun z hz hpz => ?_, hlater⟩
      rcases List.mem_cons.mp hz with rfl | hz
      · exact absurd hpz hr
      · exact hends z hz hpz

/-- Where reads stay the same, the last of the rows that start together is kept. -/
lemma kept_of_same (h : ∀ t i, SameAnswers (candidates t i base tiers)
      (candidates t i (leadValidTo windowKey (base ++ tiers)) []))
    {a : HistoryRow α} {x : ℤ} (ha : lastOf i x (base ++ tiers) = some a) : Kept base tiers a := by
  obtain ⟨hwin, hfrom⟩ := List.mem_filter.mp (List.mem_of_getLast? ha)
  obtain ⟨hmem, rfl⟩ := mem_window.mp hwin
  have hfrom : a.validFrom = some x := of_decide_eq_true hfrom
  by_contra hnot
  obtain ⟨htier, hbase⟩ := not_or.mp hnot
  -- when all copies of the row have ended and nothing later has started, it would survive unseen
  obtain ⟨t, hxt, hends, hlater⟩ := exists_instant (l := base) (p := fun y => strip y = strip a)
    (q := fun y => x < y ∧ ∃ b ∈ base ++ tiers, b.id = a.id ∧ b.validFrom = some y)
    (fun y hy => hy.1) fun r hr hra => by
      by_contra hend
      refine hbase ⟨r, hr, hra, fun e he => ?_⟩
      by_contra hnone
      refine hend ⟨e, he, fun y hy => not_le.mp fun hle => hnone ?_⟩
      obtain ⟨hxy, b, hb, hbid, hby⟩ := hy
      refine ⟨b, hb, hbid, y, hby, hle, fun z hz => ?_⟩
      rw [Option.mem_def.mp hz, Option.some.injEq] at hfrom
      rwa [hfrom]
  have hstart : validityPredicate t false a = true := validityPredicate_false.mpr ⟨x, hfrom, hxt⟩
  obtain ⟨s, hs⟩ := survivor_of_started windowKey hmem hstart
  obtain ⟨⟨hsmem, hsid, hsstart⟩, hlast⟩ := survivor_spec hs
  have hle := byStart_windowKey a s (hlast a hmem rfl hstart)
  obtain ⟨y, hy, hyt⟩ := validityPredicate_false.mp hsstart
  have hsfrom : s.validFrom = some x := by
    rw [startOf, startOf, hfrom, hy] at hle
    rcases (WithTop.coe_le_coe.mp hle).eq_or_lt with rfl | hlt
    · exact hy
    · exact absurd (hlater y ⟨hlt, s, hsmem, hsid, hy⟩) (not_lt.mpr hyt)
  have hsame := lastOf_survivor hs hsfrom
  rw [ha, Option.some.injEq] at hsame
  subst hsame
  obtain ⟨w, ⟨hw, -⟩, hws⟩ := sameAnswers_iff.mp (h t a.id) a hs
  obtain ⟨-, ⟨hb, hv⟩ | ⟨ht, -⟩⟩ := mem_candidates.mp hw
  · obtain ⟨e, he, het⟩ := hends w hb hws
    exact absurd ((validityPredicate_true.mp hv).2 e he) (not_lt.mpr het)
  · exact htier ⟨w, ht, hws⟩

/-- **A file that is rewritten**: reads stay the same exactly if it loses nothing. -/
lemma rewritten_same_iff : (∀ t i, SameAnswers (candidates t i base tiers)
      (candidates t i (leadValidTo windowKey (base ++ tiers)) [])) ↔ Lossless base tiers := by
  refine ⟨fun h => ⟨fun r _ x _ a ha => kept_of_same h ha, ?_⟩, fun h t i =>
    sameAnswers_iff.mpr fun s hs => h.stateAt hs⟩
  intro a ha b hb hid hsome hsame hshown hrank
  obtain ⟨x, hx⟩ := Option.isSome_iff_exists.mp hsome
  have hstart : ∀ {r : HistoryRow α}, r.validFrom = some x → validityPredicate x false r = true :=
    fun hr => validityPredicate_false.mpr ⟨x, hr, le_rfl⟩
  obtain ⟨s, hs⟩ := survivor_of_started windowKey ha (hstart hx)
  have hlast := (survivor_spec hs).2
  have has := hlast a ha rfl (hstart hx)
  have hbs := hlast b hb hid (hstart (hsame.trans hx))
  have hsx := validFrom_survivor hs has hx
  -- at its start the row is read before, and what survives loses against it
  obtain ⟨w, ⟨-, hbest⟩, hws⟩ := sameAnswers_iff.mp (h x a.id) s hs
  have hle := hbest a (candidate_of_shown hshown hx)
  rw [← stateKey_strip w, hws, stateKey_strip] at hle
  exact absurd (hrank.wins (hx.trans hsx.symm) ((hsame.trans hx).trans hsx.symm) has hbs)
    (not_lt.mpr hle)

/-- Reads of several files stay the same if those of each do. -/
lemma SameAnswers.flatMap {ι : Type} {l : List ι} {f g : ι → List (HistoryRow α)}
    (h : ∀ c ∈ l, SameAnswers (f c) (g c)) : SameAnswers (l.flatMap f) (l.flatMap g) := by
  refine ⟨?_, ?_⟩
  · rintro r ⟨hr, hbest⟩
    obtain ⟨c, hc, hrc⟩ := List.mem_flatMap.mp hr
    obtain ⟨x, ⟨hx, -⟩, hxr⟩ := (h c hc).chosen r
      ⟨hrc, fun y hy => hbest y (List.mem_flatMap.mpr ⟨c, hc, hy⟩)⟩
    refine ⟨x, ⟨List.mem_flatMap.mpr ⟨c, hc, hx⟩, fun y hy => ?_⟩, hxr⟩
    obtain ⟨d, hd, hyd⟩ := List.mem_flatMap.mp hy
    obtain ⟨z, hz⟩ := stateAt_of_ne_nil ((h d hd).found (List.ne_nil_of_mem hyd))
    obtain ⟨w, hw, hwz⟩ := (h d hd).chosen z hz
    calc stateKey y ≤ stateKey w := hw.2 y hyd
      _ = stateKey z := by rw [← stateKey_strip w, hwz, stateKey_strip]
      _ ≤ stateKey r := hbest z (List.mem_flatMap.mpr ⟨d, hd, hz.1⟩)
      _ = stateKey x := by rw [← stateKey_strip x, hxr, stateKey_strip]
  · intro hne
    obtain ⟨x, hx⟩ := List.exists_mem_of_ne_nil _ hne
    obtain ⟨c, hc, hxc⟩ := List.mem_flatMap.mp hx
    obtain ⟨y, hy⟩ := List.exists_mem_of_ne_nil _ ((h c hc).found (List.ne_nil_of_mem hxc))
    exact List.ne_nil_of_mem (List.mem_flatMap.mpr ⟨c, hc, hy⟩)

lemma SameAnswers.congr {a' b' : List (HistoryRow α)} (h : SameAnswers a b)
    (ha : ∀ r, r ∈ a' ↔ r ∈ a) (hb : ∀ r, r ∈ b' ↔ r ∈ b) : SameAnswers a' b' := by
  refine ⟨?_, ?_⟩
  · rintro r ⟨hr, hbest⟩
    obtain ⟨x, ⟨hx, hxbest⟩, hxr⟩ := h.chosen r ⟨(hb r).mp hr, fun y hy => hbest y ((hb y).mpr hy)⟩
    exact ⟨x, ⟨(ha x).mpr hx, fun y hy => hxbest y ((ha y).mp hy)⟩, hxr⟩
  · intro hne
    obtain ⟨x, hx⟩ := List.exists_mem_of_ne_nil _ hne
    obtain ⟨y, hy⟩ := List.exists_mem_of_ne_nil _ (h.found (List.ne_nil_of_mem ((ha x).mp hx)))
    exact List.ne_nil_of_mem ((hb y).mpr hy)

lemma SameAnswers.rfl : SameAnswers a a := ⟨fun r hr => ⟨r, hr, Eq.refl _⟩, id⟩

end Answers

end OsmParquet.HistoryWindows
