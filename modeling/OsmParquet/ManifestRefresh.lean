import Mathlib.Data.Nat.Basic
import Mathlib.Order.Basic
import Mathlib.Data.Int.Notation
import Mathlib.Tactic.Common
import OsmParquet.Traces

/-!
The manifest of an engine, beside commands that publish new ones.

An engine loads the manifest that `LATEST` names when it starts, and then reads `LATEST` again for
the number it compares with. Later, at most once in a while, a request reads `LATEST` under a lock;
if it is not the number, the manifest is loaded, for which `LATEST` is read once more, and the
number is set to what was read first. A run keeps the manifest it has started with. Manifests are
published all the time, and old ones are removed.

Every read is a step of its own.
-/

namespace OsmParquet.ManifestRefresh

open OsmParquet.Traces

/-! ### The engine -/

/-- Where the party is that starts the engine or holds the lock. -/
inductive Phase
  | unstarted
  /-- The engine starts: `load_manifest` has read `LATEST`. -/
  | starting (target : ℕ)
  /-- The manifest is there, and its number is still to be read. -/
  | loaded
  | idle
  /-- A check holds the lock. -/
  | checking
  /-- `LATEST` is not the number. -/
  | changed (latest : ℕ)
  /-- `load_manifest` has read `LATEST` again. -/
  | loading (latest target : ℕ)
  deriving DecidableEq

structure Engine where
  refreshSeconds : ℤ
  /-- What `LATEST` names, and the manifests that are gone. -/
  latest : ℕ
  removed : List ℕ := []
  phase : Phase := .unstarted
  manifest : ℕ := 0
  number : Option ℕ := none
  lastCheck : ℤ := 0
  /-- The manifests of the runs there have been. -/
  runs : List ℕ := []

inductive Event
  | publish (n : ℕ)
  | remove (n : ℕ)
  | readLatest (readable : Bool)
  | readManifest (readable : Bool) (now : ℤ)
  | check (now : ℤ)
  | run

/-- A failed read ends what was begun. -/
def Engine.fail (s : Engine) : Engine :=
  match s.phase with
  | .unstarted | .starting _ => { s with phase := .unstarted }
  | .loaded => { s with phase := .idle, number := none }
  | .idle | .checking | .changed _ | .loading _ _ => { s with phase := .idle }

def Engine.load (s : Engine) (target : ℕ) (readable : Bool) (loaded : Engine) : Engine :=
  if readable && decide (target ∉ s.removed) then { loaded with manifest := target } else s.fail

def step (s : Engine) : Event → Option Engine
  | .publish n => if s.latest < n then some { s with latest := n } else none
  | .remove n => if n < s.latest then some { s with removed := n :: s.removed } else none
  | .readLatest readable => match s.phase with
    | .unstarted => some (if readable then { s with phase := .starting s.latest } else s.fail)
    | .loaded =>
      some (if readable then { s with phase := .idle, number := some s.latest } else s.fail)
    | .checking => some (if readable then
        { s with phase := if s.number = some s.latest then .idle
          else .changed s.latest } else s.fail)
    | .changed latest =>
      some (if readable then { s with phase := .loading latest s.latest } else s.fail)
    | .starting _ | .idle | .loading _ _ => none
  | .readManifest readable now => match s.phase with
    | .starting target =>
      some (s.load target readable { s with phase := .loaded, lastCheck := now })
    | .loading latest target =>
      some (s.load target readable { s with phase := .idle, number := some latest })
    | .unstarted | .loaded | .idle | .checking | .changed _ => none
  | .check now => match s.phase with
    | .idle => some (if now - s.lastCheck < s.refreshSeconds then s else
        { s with phase := .checking, lastCheck := now })
    | .unstarted | .starting _ | .loaded | .checking | .changed _ | .loading _ _ => none
  | .run => match s.phase with
    | .unstarted | .starting _ | .loaded => none
    | .idle | .checking | .changed _ | .loading _ _ => some { s with runs := s.manifest :: s.runs }

/-! ### What is never newer than what -/

/-- Nothing is published between the two reads of `LATEST` by which an engine starts. -/
def Careful (s : Engine) : Event → Prop
  | .readLatest _ => s.phase = .loaded → s.manifest = s.latest
  | _ => True

instance : ∀ s e, Decidable (Careful s e)
  | s, .readLatest _ => inferInstanceAs (Decidable (s.phase = .loaded → s.manifest = s.latest))
  | _, .publish _ | _, .remove _ | _, .readManifest _ _ | _, .check _ | _, .run => isTrue trivial

structure Inv (s : Engine) : Prop where
  manifest : s.manifest ≤ s.latest
  removed : ∀ n ∈ s.removed, n < s.latest
  /-- A run has no older manifest than the runs before it. -/
  runs : (s.manifest :: s.runs).Pairwise (· ≥ ·)
  phase : match s.phase with
    | .unstarted => s.manifest = 0 ∧ s.runs = []
    | .starting target => target ≤ s.latest ∧ s.manifest = 0 ∧ s.runs = []
    | .loaded => s.runs = []
    | .changed latest => s.manifest ≤ latest ∧ latest ≤ s.latest
    | .loading latest target => s.manifest ≤ latest ∧ latest ≤ target ∧ target ≤ s.latest
    | .idle | .checking => True

/-- The number is not newer than the manifest. -/
def NumberBehind (s : Engine) : Prop := ∀ n ∈ s.number, n ≤ s.manifest

section Invariant

variable {s s' : Engine} {e : Event}

lemma newer_manifest {m m' : ℕ} {runs : List ℕ} (h : (m :: runs).Pairwise (· ≥ ·)) (hm : m ≤ m') :
    (m' :: runs).Pairwise (· ≥ ·) := by
  obtain ⟨hnewest, hruns⟩ := List.pairwise_cons.mp h
  exact List.pairwise_cons.mpr ⟨fun n hn => (hnewest n hn).trans hm, hruns⟩

lemma run_again {m : ℕ} {runs : List ℕ} (h : (m :: runs).Pairwise (· ≥ ·)) :
    (m :: m :: runs).Pairwise (· ≥ ·) :=
  List.pairwise_cons.mpr ⟨List.forall_mem_cons.mpr ⟨le_rfl, (List.pairwise_cons.mp h).1⟩, h⟩

lemma inv_fail (hi : Inv s) : Inv s.fail := by
  obtain ⟨hmanifest, hremoved, hruns, hphase⟩ := hi
  rw [Engine.fail]
  cases h : s.phase with
  | unstarted => exact ⟨hmanifest, hremoved, hruns, by simpa [h] using hphase⟩
  | starting target =>
    rw [h] at hphase
    exact ⟨hmanifest, hremoved, hruns, hphase.2⟩
  | _ => exact ⟨hmanifest, hremoved, hruns, trivial⟩

lemma fail_manifest (s : Engine) : s.fail.manifest = s.manifest := by
  rw [Engine.fail]
  cases s.phase <;> rfl

/-- A failed read. -/
lemma inv_failed (hi : Inv s) (h : s.fail = s') : Inv s' ∧ s.manifest ≤ s'.manifest :=
  h ▸ ⟨inv_fail hi, (fail_manifest s).ge⟩

lemma inv_readLatest {readable : Bool} (hi : Inv s) (h : step s (.readLatest readable) = some s') :
    Inv s' ∧ s.manifest ≤ s'.manifest := by
  have hmanifest := hi.manifest
  have hphase := hi.phase
  cases readable with
  | false =>
    cases hp : s.phase <;> simp only [step, hp, Bool.false_eq_true, if_false, Option.some.injEq,
      reduceCtorEq] at h
    all_goals exact inv_failed hi h
  | true =>
    cases hp : s.phase <;> simp only [step, hp, if_true, Option.some.injEq, reduceCtorEq] at h
    all_goals subst h
    · rw [hp] at hphase
      exact ⟨⟨hmanifest, hi.removed, hi.runs, le_rfl, hphase⟩, le_rfl⟩
    · exact ⟨⟨hmanifest, hi.removed, hi.runs, trivial⟩, le_rfl⟩
    · refine ⟨⟨hmanifest, hi.removed, hi.runs, ?_⟩, le_rfl⟩
      dsimp only
      split_ifs
      · trivial
      · exact ⟨hmanifest, le_rfl⟩
    · rw [hp] at hphase
      exact ⟨⟨hmanifest, hi.removed, hi.runs, hphase.1, hphase.2, le_rfl⟩, le_rfl⟩

lemma inv_readManifest {readable : Bool} {now : ℤ} (hi : Inv s)
    (h : step s (.readManifest readable now) = some s') : Inv s' ∧ s.manifest ≤ s'.manifest := by
  have hphase := hi.phase
  cases hp : s.phase with
  | starting target =>
    simp only [step, hp, Option.some.injEq, Engine.load] at h
    rw [hp] at hphase
    split_ifs at h
    · subst h
      obtain ⟨htarget, hzero, hruns⟩ := hphase
      have hnewer : s.manifest ≤ target := hzero ▸ Nat.zero_le target
      exact ⟨⟨htarget, hi.removed, newer_manifest hi.runs hnewer, hruns⟩, hnewer⟩
    · exact inv_failed hi h
  | loading latest target =>
    simp only [step, hp, Option.some.injEq, Engine.load] at h
    rw [hp] at hphase
    obtain ⟨hlatest, htarget, hpublished⟩ := hphase
    split_ifs at h
    · subst h
      have hnewer := hlatest.trans htarget
      exact ⟨⟨hpublished, hi.removed, newer_manifest hi.runs hnewer, trivial⟩, hnewer⟩
    · exact inv_failed hi h
  | _ => simp only [step, hp, reduceCtorEq] at h

/-- No manifest that is loaded is older than one before. -/
lemma inv_step (hi : Inv s) (h : step s e = some s') : Inv s' ∧ s.manifest ≤ s'.manifest := by
  have hmanifest := hi.manifest
  have hphase := hi.phase
  cases e with
  | publish n =>
    rw [step] at h
    split_ifs at h with hn
    cases h
    refine ⟨⟨hmanifest.trans hn.le, fun m hm => (hi.removed m hm).trans hn, hi.runs, ?_⟩, le_rfl⟩
    dsimp only
    cases hp : s.phase <;> rw [hp] at hphase
    · exact hphase
    · exact ⟨hphase.1.trans hn.le, hphase.2⟩
    · exact hphase
    · trivial
    · trivial
    · exact ⟨hphase.1, hphase.2.trans hn.le⟩
    · exact ⟨hphase.1, hphase.2.1, hphase.2.2.trans hn.le⟩
  | remove n =>
    rw [step] at h
    split_ifs at h with hn
    cases h
    exact ⟨⟨hmanifest, List.forall_mem_cons.mpr ⟨hn, hi.removed⟩, hi.runs, hphase⟩, le_rfl⟩
  | readLatest readable => exact inv_readLatest hi h
  | readManifest readable now => exact inv_readManifest hi h
  | check now =>
    cases hp : s.phase <;> simp only [step, hp, Option.some.injEq, reduceCtorEq] at h
    split_ifs at h
    · cases h
      exact ⟨hi, le_rfl⟩
    · cases h
      exact ⟨⟨hmanifest, hi.removed, hi.runs, trivial⟩, le_rfl⟩
  | run =>
    have hruns : (s.manifest :: s.manifest :: s.runs).Pairwise (· ≥ ·) := run_again hi.runs
    cases hp : s.phase <;> simp only [step, hp, Option.some.injEq, reduceCtorEq] at h
    all_goals
      cases h
      rw [hp] at hphase
      exact ⟨⟨hmanifest, hi.removed, hruns, hphase⟩, le_rfl⟩

/-- A number that stays does not come to be newer than the manifest. -/
lemma NumberBehind.kept (hb : NumberBehind s) (hm : s.manifest ≤ s'.manifest)
    (hn : s'.number = s.number) : NumberBehind s' := fun n h => (hb n (hn ▸ h)).trans hm

lemma fail_number (s : Engine) : s.fail.number = s.number ∨ s.fail.number = none := by
  rw [Engine.fail]
  cases s.phase
  case loaded => exact .inr rfl
  all_goals exact .inl rfl

lemma behind_failed (hb : NumberBehind s) (h : s.fail = s') : NumberBehind s' := by
  subst h
  rcases fail_number s with hn | hn
  · exact hb.kept (fail_manifest s).ge hn
  · intro n h
    rw [hn] at h
    exact absurd h (Option.not_mem_none n)

/-- The number stays behind the manifest, if the engine is started with care. -/
lemma behind_step (hi : Inv s) (hb : NumberBehind s) (hc : Careful s e) (h : step s e = some s') :
    NumberBehind s' := by
  have hnewer : s.manifest ≤ s'.manifest := (inv_step hi h).2
  cases e with
  | publish n =>
    rw [step] at h
    split_ifs at h
    cases h
    exact hb
  | remove n =>
    rw [step] at h
    split_ifs at h
    cases h
    exact hb
  | readLatest readable =>
    cases readable with
    | false =>
      cases hp : s.phase <;> simp only [step, hp, Bool.false_eq_true, if_false, Option.some.injEq,
        reduceCtorEq] at h
      all_goals exact behind_failed hb h
    | true =>
      cases hp : s.phase <;> simp only [step, hp, if_true, Option.some.injEq, reduceCtorEq] at h
      case loaded =>
        subst h
        rintro n ⟨⟩
        exact (hc hp).ge
      all_goals
        subst h
        exact hb
  | readManifest readable now =>
    have hphase := hi.phase
    cases hp : s.phase with
    | starting target =>
      simp only [step, hp, Option.some.injEq, Engine.load] at h
      split_ifs at h
      · subst h
        exact hb.kept hnewer rfl
      · exact behind_failed hb h
    | loading latest target =>
      simp only [step, hp, Option.some.injEq, Engine.load] at h
      rw [hp] at hphase
      split_ifs at h
      · subst h
        rintro n ⟨⟩
        exact hphase.2.1
      · exact behind_failed hb h
    | _ => simp only [step, hp, reduceCtorEq] at h
  | check now =>
    cases hp : s.phase <;> simp only [step, hp, Option.some.injEq, reduceCtorEq] at h
    split_ifs at h <;> cases h <;> exact hb
  | run =>
    cases hp : s.phase <;> simp only [step, hp, Option.some.injEq, reduceCtorEq] at h
    all_goals
      cases h
      exact hb

end Invariant

/-! ### Catching up -/

/-- Nothing is published, and all reads succeed. -/
def Quiet : Event → Prop
  | .publish _ => False
  | .readLatest readable | .readManifest readable _ => readable = true
  | _ => True

instance : ∀ e, Decidable (Quiet e)
  | .publish _ => isFalse id
  | .readLatest readable | .readManifest readable _ => inferInstanceAs (Decidable (readable = true))
  | .remove _ | .check _ | .run => isTrue trivial

/-- A check is on the way to the latest manifest, or has come there. -/
def Catching (s : Engine) : Prop :=
  match s.phase with
  | .checking => s.number = some s.latest → s.manifest = s.latest
  | .changed latest => latest = s.latest
  | .loading latest target => latest = s.latest ∧ target = s.latest
  | .idle => s.manifest = s.latest ∧ s.number = some s.latest
  | .unstarted | .starting _ | .loaded => False

/-- The number says that there is nothing new. -/
def Content (m : ℕ) (s : Engine) : Prop :=
  (s.phase = .idle ∨ s.phase = .checking) ∧ s.number = some s.latest ∧ s.manifest = m

section CatchingUp

variable {s s' : Engine} {e : Event} {m : ℕ}

lemma quiet_latest (hq : Quiet e) (h : step s e = some s') : s'.latest = s.latest := by
  cases e with
  | publish n => exact absurd hq id
  | remove n =>
    rw [step] at h
    split_ifs at h
    cases h
    rfl
  | readLatest readable =>
    obtain rfl : readable = true := hq
    cases hp : s.phase <;> simp only [step, hp, if_true, Option.some.injEq, reduceCtorEq] at h
    all_goals
      cases h
      rfl
  | readManifest readable now =>
    cases hp : s.phase <;> simp only [step, hp, Engine.load, Engine.fail, Option.some.injEq,
      reduceCtorEq] at h
    all_goals split_ifs at h <;> cases h <;> rfl
  | check now =>
    cases hp : s.phase <;> simp only [step, hp, Option.some.injEq, reduceCtorEq] at h
    split_ifs at h <;> cases h <;> rfl
  | run =>
    cases hp : s.phase <;> simp only [step, hp, Option.some.injEq, reduceCtorEq] at h
    all_goals
      cases h
      rfl

lemma catching_step (hi : Inv s) (hs : Catching s) (hq : Quiet e) (h : step s e = some s') :
    Catching s' := by
  unfold Catching at hs
  cases e with
  | publish n => exact absurd hq id
  | remove n =>
    rw [step] at h
    split_ifs at h
    cases h
    exact hs
  | readLatest readable =>
    obtain rfl : readable = true := hq
    cases hp : s.phase <;> rw [hp] at hs <;> simp only [step, hp, if_true, Option.some.injEq,
      reduceCtorEq] at h
    · exact absurd hs id
    · exact absurd hs id
    · subst h
      unfold Catching
      dsimp only
      split_ifs with hn
      · exact ⟨hs hn, hn⟩
      · rfl
    · cases h
      exact ⟨hs, rfl⟩
  | readManifest readable now =>
    obtain rfl : readable = true := hq
    cases hp : s.phase with
    | starting target =>
      rw [hp] at hs
      exact absurd hs id
    | loading latest target =>
      rw [hp] at hs
      obtain ⟨rfl, rfl⟩ := hs
      have hthere : s.latest ∉ s.removed := fun hn => (hi.removed _ hn).false
      simp only [step, hp, Engine.load, Bool.true_and, decide_eq_true_eq, if_pos hthere,
        Option.some.injEq] at h
      subst h
      exact ⟨rfl, rfl⟩
    | _ => simp only [step, hp, reduceCtorEq] at h
  | check now =>
    cases hp : s.phase <;> rw [hp] at hs <;> simp only [step, hp, Option.some.injEq,
      reduceCtorEq] at h
    split_ifs at h
    · cases h
      unfold Catching
      rw [hp]
      exact hs
    · cases h
      exact fun _ => hs.1
  | run =>
    cases hp : s.phase <;> rw [hp] at hs <;> simp only [step, hp, Option.some.injEq,
      reduceCtorEq] at h
    all_goals
      cases h
      exact hs

/-- With a number that says so, no check looks any further. -/
lemma content_step (hs : Content m s) (hq : Quiet e) (h : step s e = some s') : Content m s' := by
  obtain ⟨hphase, hnumber, hmanifest⟩ := hs
  cases e with
  | publish n => exact absurd hq id
  | remove n =>
    rw [step] at h
    split_ifs at h
    cases h
    exact ⟨hphase, hnumber, hmanifest⟩
  | readLatest readable =>
    obtain rfl : readable = true := hq
    rcases hphase with hp | hp <;> simp only [step, hp, if_true, Option.some.injEq,
      reduceCtorEq] at h
    rw [if_pos hnumber] at h
    cases h
    exact ⟨.inl rfl, hnumber, hmanifest⟩
  | readManifest readable now =>
    rcases hphase with hp | hp <;> simp only [step, hp, reduceCtorEq] at h
  | check now =>
    rcases hphase with hp | hp
    · simp only [step, hp, Option.some.injEq] at h
      split_ifs at h
      · cases h
        exact ⟨.inl hp, hnumber, hmanifest⟩
      · cases h
        exact ⟨.inr rfl, hnumber, hmanifest⟩
    · simp only [step, hp, reduceCtorEq] at h
  | run =>
    rcases hphase with hp | hp <;> simp only [step, hp, Option.some.injEq] at h
    all_goals
      cases h
      exact ⟨by simp only [true_or, or_true], hnumber, hmanifest⟩

end CatchingUp

section Runs

variable {refreshSeconds now : ℤ} {n : ℕ} {s s' : Engine} {es es' : List Event}

/-- Before an engine starts. -/
def before (refreshSeconds : ℤ) (latest : ℕ) : Engine := { refreshSeconds, latest }

lemma inv_before : Inv (before refreshSeconds n) :=
  ⟨Nat.zero_le n, List.forall_mem_nil _, List.pairwise_singleton _ _, rfl, rfl⟩

lemma inv_reached (h : play step (before refreshSeconds n) es = some s) : Inv s :=
  play_keeps_always (fun _ _ _ hi ht => (inv_step hi ht).1) inv_before h

lemma behind_reached (hc : Along step Careful (before refreshSeconds n) es)
    (h : play step (before refreshSeconds n) es = some s) : NumberBehind s := by
  have hstep : ∀ s e s', Inv s ∧ NumberBehind s → Careful s e → step s e = some s' →
      Inv s' ∧ NumberBehind s' := fun _ _ _ ⟨hi, hb⟩ hc h =>
        ⟨(inv_step hi h).1, behind_step hi hb hc h⟩
  exact (play_keeps hstep ⟨inv_before, fun m hm => absurd hm (Option.not_mem_none m)⟩ hc h).2

lemma latest_play (hq : ∀ e ∈ es, Quiet e) (h : play step s es = some s') : s'.latest = s.latest :=
  play_keeps (I := fun t => t.latest = s.latest) (C := fun _ e => Quiet e)
    (fun _ _ _ ht hq h => (quiet_latest hq h).trans ht) rfl (along_of_forall hq) h

lemma check_due (hidle : s.phase = .idle) (hdue : s.refreshSeconds ≤ now - s.lastCheck) :
    step s (.check now) = some { s with phase := .checking, lastCheck := now } := by
  simp only [step, hidle, if_neg (Int.not_lt.mpr hdue)]

/-- A check that starts with the right to its number ends with the latest manifest. -/
lemma caught_up (hi : Inv s) (hidle : s.phase = .idle) (hdue : s.refreshSeconds ≤ now - s.lastCheck)
    (hright : s.number = some s.latest → s.manifest = s.latest) (hq : ∀ e ∈ es, Quiet e)
    (h : play step s (.check now :: es) = some s') (hdone : s'.phase = .idle) :
    s'.manifest = s'.latest ∧ s'.number = some s'.latest := by
  obtain ⟨c, hcheck, h⟩ := play_cons_eq_some.mp h
  have hic : Inv c := (inv_step hi hcheck).1
  rw [check_due hidle hdue, Option.some.injEq] at hcheck
  have hcatching : Catching c := hcheck ▸ hright
  have hstep : ∀ s e s', Inv s ∧ Catching s → Quiet e → step s e = some s' → Inv s' ∧ Catching s' :=
    fun _ _ _ ⟨hi, hs⟩ hq h => ⟨(inv_step hi h).1, catching_step hi hs hq h⟩
  have hend : Catching s' :=
    (play_keeps (C := fun _ e => Quiet e) hstep ⟨hic, hcatching⟩ (along_of_forall hq) h).2
  rw [Catching, hdone] at hend
  exact hend

/-- With a number of what is published and another manifest, the check leaves the manifest. -/
lemma left_behind (hidle : s.phase = .idle) (hdue : s.refreshSeconds ≤ now - s.lastCheck)
    (hnumber : s.number = some s.latest) (hq : ∀ e ∈ es, Quiet e)
    (h : play step s (.check now :: es) = some s') : s'.manifest = s.manifest := by
  obtain ⟨c, hcheck, h⟩ := play_cons_eq_some.mp h
  rw [check_due hidle hdue, Option.some.injEq] at hcheck
  have hcontent : Content s.manifest c := hcheck ▸ ⟨.inr rfl, hnumber, rfl⟩
  exact (play_keeps (C := fun _ e => Quiet e) (fun _ _ _ hs hq h => content_step hs hq h) hcontent
    (along_of_forall hq) h).2.2

/-- **An engine catches up.** Whatever is published and removed, and whatever reads fail, the
manifest is never newer than the latest one and no run has an older manifest than a run before it.
If nothing was published between the reads by which the engine started, a check that is due, whose
reads succeed and during which nothing is published ends with the latest manifest. -/
theorem refresh_catches_up (h : play step (before refreshSeconds n) es = some s) :
    s.manifest ≤ s.latest ∧ (s.manifest :: s.runs).Pairwise (· ≥ ·) ∧
      (Along step Careful (before refreshSeconds n) es → ∀ now es' s', s.phase = .idle →
        s.refreshSeconds ≤ now - s.lastCheck → (∀ e ∈ es', Quiet e) →
          play step s (.check now :: es') = some s' → s'.phase = .idle →
            s'.manifest = s.latest ∧ s'.number = some s.latest) := by
  have hi : Inv s := inv_reached h
  refine ⟨hi.manifest, hi.runs, fun hcare now es' s' hidle hdue hq h' hdone => ?_⟩
  have hb : NumberBehind s := behind_reached hcare h
  have hright : s.number = some s.latest → s.manifest = s.latest := fun hn =>
    le_antisymm hi.manifest (hb _ hn)
  have hq' : ∀ e ∈ Event.check now :: es', Quiet e := List.forall_mem_cons.mpr ⟨trivial, hq⟩
  have hlatest : s'.latest = s.latest := latest_play hq' h'
  exact hlatest ▸ caught_up hi hidle hdue hright hq h' hdone

/-- An engine that starts with the manifest 1 and runs a program, before and after 2 is
published. -/
def runsAndPublished : List Event :=
  [.readLatest true, .readManifest true 0, .readLatest true, .run, .publish 2, .remove 1, .run]

/-- What a check does that finds a new manifest. -/
def reads : List Event := [.readLatest true, .readLatest true, .readManifest true 61]

theorem refresh_catches_up_published :
    ∃ s s', play step (before 60 1) runsAndPublished = some s ∧
      play step s (.check 60 :: reads) = some s' ∧ s.manifest = 1 ∧ s'.manifest = 2 := by
  have hcare : Along step Careful (before 60 1) runsAndPublished := by decide
  obtain ⟨s, hs⟩ : ∃ s, play step (before 60 1) runsAndPublished = some s := ⟨_, rfl⟩
  obtain ⟨-, -, hcheck⟩ := refresh_catches_up hs
  cases hs
  exact ⟨_, _, rfl, rfl, rfl, (hcheck hcare 60 reads _ rfl (by decide) (by decide) rfl rfl).1⟩

/-- **When an engine catches up.** A check that is due, whose reads succeed and during which nothing
is published ends with the latest manifest exactly if the number did not name the latest manifest
while the engine held another: with such a number the engine goes on with the old manifest until
something is published. -/
theorem refresh_catches_up_iff (h : play step (before refreshSeconds n) es = some s)
    (hidle : s.phase = .idle) (hdue : s.refreshSeconds ≤ now - s.lastCheck)
    (hq : ∀ e ∈ es', Quiet e) (h' : play step s (.check now :: es') = some s')
    (hdone : s'.phase = .idle) :
    s'.manifest = s'.latest ↔ (s.number = some s.latest → s.manifest = s.latest) := by
  have hi : Inv s := inv_reached h
  have hq' : ∀ e ∈ Event.check now :: es', Quiet e := List.forall_mem_cons.mpr ⟨trivial, hq⟩
  have hlatest : s'.latest = s.latest := latest_play hq' h'
  constructor
  · intro hend hnumber
    rw [← left_behind hidle hdue hnumber hq h', hend, hlatest]
  · intro hright
    exact (caught_up hi hidle hdue hright hq h' hdone).1

/-- 2 is published after the engine has read that 1 is the latest, and before it reads its
number. -/
def publishedAtStart : List Event :=
  [.readLatest true, .publish 2, .readManifest true 0, .readLatest true]

def startedBetween : Engine :=
  { refreshSeconds := 60, latest := 2, phase := .idle, manifest := 1, number := some 2 }

theorem refresh_catches_up_iff_publishedAtStart :
    play step (before 60 1) publishedAtStart = some startedBetween ∧
      ∃ s, play step startedBetween [.check 60, .readLatest true] = some s ∧
        s.manifest ≠ s.latest := by
  have hstart : play step (before 60 1) publishedAtStart = some startedBetween := rfl
  have hdue : startedBetween.refreshSeconds ≤ 60 - startedBetween.lastCheck := by decide
  have hquiet : ∀ e ∈ [Event.readLatest true], Quiet e := by decide
  refine ⟨hstart, { startedBetween with lastCheck := 60 }, rfl, fun hend => ?_⟩
  have hright := (refresh_catches_up_iff hstart rfl hdue hquiet rfl rfl).mp hend
  exact absurd (hright rfl) (by decide)

end Runs

end OsmParquet.ManifestRefresh
