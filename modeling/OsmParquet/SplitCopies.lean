import OsmParquet.Timeline

/-!
A table and a copy of it that is split by place.

The table has at a time some rows, of which the best one counts. A reader of the copy sees only
the rows at the places it asks for, so the best row among these may be one that has lost elsewhere.
The copy therefore also holds rows that show nothing and stand at a place that a row has left. If
they stand at the right places, what such a reader is shown is what the table shows at the places
it asks for.
-/

namespace OsmParquet.SplitCopies

open OsmParquet.Timeline

variable {ρ κ π : Type*} [LinearOrder κ] (key : ρ → κ) (place : ρ → Option π) (shown : ρ → Prop)

/-- The rows of a table at a time, and those of its copy. Of two rows of the table the better one
is at the same place, or there is a row of the copy that wins against the other one where that
stands. -/
structure Mirrors (table copy : List ρ) : Prop where
  placed : ∀ r ∈ table, shown r → (place r).isSome
  copied : ∀ r ∈ table, (place r).isSome → r ∈ copy
  traced : ∀ r ∈ copy, r ∈ table ∨ ¬ shown r ∧ ∃ x ∈ table, key r < key x
  guarded : ∀ x ∈ table, ∀ y ∈ table, shown x → key x < key y →
    place x = place y ∨ ∃ z ∈ copy, place z = place x ∧ key x < key z
  unique : ∀ x ∈ table, ∀ y ∈ table, key x = key y → x = y

variable {key place shown} {table copy table' copy' : List ρ} {r n : ρ}

/-- Only the rows matter, not their order. -/
lemma Mirrors.congr (h : Mirrors key place shown table copy) (ht : ∀ r, r ∈ table' ↔ r ∈ table)
    (hc : ∀ r, r ∈ copy' ↔ r ∈ copy) : Mirrors key place shown table' copy' where
  placed r hr := h.placed r ((ht r).mp hr)
  copied r hr hp := (hc r).mpr (h.copied r ((ht r).mp hr) hp)
  traced r hr := by
    rcases h.traced r ((hc r).mp hr) with hin | ⟨hs, x, hx, hlt⟩
    · exact .inl ((ht r).mpr hin)
    · exact .inr ⟨hs, x, (ht x).mpr hx, hlt⟩
  guarded x hx y hy hs hlt := by
    rcases h.guarded x ((ht x).mp hx) y ((ht y).mp hy) hs hlt with heq | ⟨z, hz, hzp, hxz⟩
    · exact .inl heq
    · exact .inr ⟨z, (hc z).mpr hz, hzp, hxz⟩
  unique x hx y hy := h.unique x ((ht x).mp hx) y ((ht y).mp hy)

/-- The rows of the copy that a reader of some places sees. -/
def seen (place : ρ → Option π) (P : π → Bool) (copy : List ρ) : List ρ :=
  copy.filter fun r => (place r).any P

lemma mem_seen {P : π → Bool} : r ∈ seen place P copy ↔ r ∈ copy ∧ (place r).any P = true :=
  List.mem_filter

lemma isSome_of_any {P : π → Bool} (h : (place r).any P = true) : (place r).isSome := by
  obtain ⟨c, hc, -⟩ := (Option.any_eq_true _ _).mp h
  rw [hc]
  rfl

section Read

variable {P : π → Bool} (h : Mirrors key place shown table copy)

include h

/-- No row of the copy wins against the best row of the table. -/
lemma Mirrors.le_best (hr : Best key table r) {x : ρ} (hx : x ∈ copy) : key x ≤ key r := by
  rcases h.traced x hx with hin | ⟨-, y, hy, hlt⟩
  · exact hr.2 x hin
  · exact hlt.le.trans (hr.2 y hy)

/-- A row of the table that a reader is shown is the best one: a better one would have left a row
that wins where the reader looks. -/
lemma Mirrors.best_of_seen (hr : Best key (seen place P copy) r) (hs : shown r) :
    Best key table r := by
  obtain ⟨hmem, hany⟩ := mem_seen.mp hr.1
  have hin : r ∈ table := (h.traced r hmem).resolve_right fun hn => hn.1 hs
  refine ⟨hin, fun y hy => ?_⟩
  by_contra hlt
  rw [not_le] at hlt
  rcases h.guarded r hin y hy hs hlt with heq | ⟨z, hz, hzp, hrz⟩
  · have hyany : (place y).any P = true := heq ▸ hany
    have hyc : y ∈ copy := h.copied y hy (isSome_of_any hyany)
    exact absurd (hr.2 y (mem_seen.mpr ⟨hyc, hyany⟩)) (not_le.mpr hlt)
  · exact absurd (hr.2 z (mem_seen.mpr ⟨hz, hzp ▸ hany⟩)) (not_le.mpr hrz)

/-- **What a reader of some places is shown** is what the table shows, if it is at these places. -/
theorem Mirrors.seen_iff : Best key (seen place P copy) r ∧ shown r ↔
    (Best key table r ∧ shown r) ∧ (place r).any P = true := by
  constructor
  · rintro ⟨hr, hs⟩
    exact ⟨⟨h.best_of_seen hr hs, hs⟩, (mem_seen.mp hr.1).2⟩
  · rintro ⟨⟨hr, hs⟩, hany⟩
    have hc : r ∈ copy := h.copied r hr.1 (h.placed r hr.1 hs)
    exact ⟨⟨mem_seen.mpr ⟨hc, hany⟩, fun x hx => h.le_best hr (mem_seen.mp hx).1⟩, hs⟩

/-- A reader of all places is shown what the table shows. -/
lemma Mirrors.best_iff : Best key copy r ∧ shown r ↔ Best key table r ∧ shown r := by
  constructor
  · rintro ⟨hr, hs⟩
    have hin : r ∈ table := (h.traced r hr.1).resolve_right fun hn => hn.1 hs
    have hany : (place r).any (fun _ => true) = true := by
      obtain ⟨c, hc⟩ := Option.isSome_iff_exists.mp (h.placed r hin hs)
      rw [hc]
      rfl
    have hseen : Best key (seen place (fun _ => true) copy) r :=
      ⟨mem_seen.mpr ⟨hr.1, hany⟩, fun x hx => hr.2 x (mem_seen.mp hx).1⟩
    exact ⟨h.best_of_seen hseen hs, hs⟩
  · rintro ⟨hr, hs⟩
    exact ⟨⟨h.copied r hr.1 (h.placed r hr.1 hs), fun x hx => h.le_best hr hx⟩, hs⟩

end Read

section Insert

/-- A table with one row, or none. -/
lemma mirrors_of_subsingleton (hone : ∀ x ∈ table, ∀ y ∈ table, x = y)
    (hplaced : ∀ r ∈ table, shown r → (place r).isSome)
    (hcopied : ∀ r ∈ table, (place r).isSome → r ∈ copy)
    (htraced : ∀ r ∈ copy, r ∈ table ∨ ¬ shown r ∧ ∃ x ∈ table, key r < key x) :
    Mirrors key place shown table copy where
  placed := hplaced
  copied := hcopied
  traced := htraced
  guarded x hx y hy _ hlt := by
    rw [hone x hx y hy] at hlt
    exact (lt_irrefl _ hlt).elim
  unique x hx y hy _ := hone x hx y hy

variable (h : Mirrors key place shown table copy)

include h

/-- If the best row of the table is at the place of a better one or has left a row that wins where
it stands, that is so of all rows. -/
lemma Mirrors.guarded_last (hsub : ∀ r ∈ copy, r ∈ copy')
    (hlast : ∀ x, Best key table x → shown x → place x = place n ∨
      ∃ z ∈ copy', place z = place x ∧ ∀ y ∈ table, shown y → key y < key z)
    {x : ρ} (hx : x ∈ table) (hs : shown x) :
    place x = place n ∨ ∃ z ∈ copy', place z = place x ∧ key x < key z := by
  obtain ⟨l, hl⟩ := exists_best key (List.ne_nil_of_mem hx)
  have last : shown l → place x = place l →
      place x = place n ∨ ∃ z ∈ copy', place z = place x ∧ key x < key z := by
    intro hls heq
    rcases hlast l hl hls with hn | ⟨z, hz, hzp, hzlt⟩
    · exact .inl (heq.trans hn)
    · exact .inr ⟨z, hz, hzp.trans heq.symm, hzlt x hx hs⟩
  rcases (hl.2 x hx).eq_or_lt with he | hlt
  · have hxl : x = l := h.unique x hx l hl.1 he
    exact last (hxl ▸ hs) (by rw [hxl])
  · rcases h.guarded x hx l hl.1 hs hlt with heq | ⟨z, hz, hzp, hxz⟩
    · by_cases hls : shown l
      · exact last hls heq
      · -- the last row shows nothing and stands there itself
        have hsome : (place l).isSome := heq ▸ h.placed x hx hs
        exact .inr ⟨l, hsub l (h.copied l hl.1 hsome), heq.symm, hlt⟩
    · exact .inr ⟨z, hsub z hz, hzp, hxz⟩

/-- **A better row comes.** The copy gets it too, and if it is at another place than the last one, a
row that wins there. -/
theorem Mirrors.insert (ht : ∀ r, r ∈ table' ↔ r ∈ table ∨ r = n) (hgt : ∀ x ∈ table, key x < key n)
    (hnp : shown n → (place n).isSome) (hnc : (place n).isSome → n ∈ copy')
    (hsub : ∀ r ∈ copy, r ∈ copy')
    (hnew : ∀ r ∈ copy', r ∈ copy ∨ r = n ∨ ¬ shown r ∧ key r < key n)
    (hlast : ∀ x, Best key table x → shown x → place x = place n ∨
      ∃ z ∈ copy', place z = place x ∧ ∀ y ∈ table, shown y → key y < key z) :
    Mirrors key place shown table' copy' where
  placed r hr hs := by
    rcases (ht r).mp hr with hr | rfl
    · exact h.placed r hr hs
    · exact hnp hs
  copied r hr hp := by
    rcases (ht r).mp hr with hr | rfl
    · exact hsub r (h.copied r hr hp)
    · exact hnc hp
  traced r hr := by
    rcases hnew r hr with hr | rfl | ⟨hs, hlt⟩
    · rcases h.traced r hr with hin | ⟨hs, x, hx, hlt⟩
      · exact .inl ((ht r).mpr (.inl hin))
      · exact .inr ⟨hs, x, (ht x).mpr (.inl hx), hlt⟩
    · exact .inl ((ht r).mpr (.inr rfl))
    · exact .inr ⟨hs, n, (ht n).mpr (.inr rfl), hlt⟩
  guarded x hx y hy hs hlt := by
    rcases (ht y).mp hy with hy | rfl
    · rcases (ht x).mp hx with hx | rfl
      · rcases h.guarded x hx y hy hs hlt with heq | ⟨z, hz, hzp, hxz⟩
        · exact .inl heq
        · exact .inr ⟨z, hsub z hz, hzp, hxz⟩
      · exact (lt_asymm hlt (hgt y hy)).elim
    · rcases (ht x).mp hx with hx | rfl
      · exact h.guarded_last hsub hlast hx hs
      · exact (lt_irrefl _ hlt).elim
  unique x hx y hy he := by
    rcases (ht x).mp hx with hx | rfl
    · rcases (ht y).mp hy with hy | rfl
      · exact h.unique x hx y hy he
      · exact ((hgt x hx).ne he).elim
    · rcases (ht y).mp hy with hy | rfl
      · exact ((hgt y hy).ne he.symm).elim
      · rfl

end Insert

end OsmParquet.SplitCopies
