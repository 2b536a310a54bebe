import Mathlib.Algebra.BigOperators.Group.List.Basic
import Mathlib.Algebra.Order.Ring.Nat
import OsmParquet.Replication

/-!
Runs while nothing fails and nothing new is published.

Whatever earlier runs have left in the directory, a run brings its root as far as the options let
it, or to the latest sequence of the source.
-/

namespace OsmParquet.CatchUp

open OsmParquet.Procedures OsmParquet.SequencePaths OsmParquet.Replication

variable {α β : Type} {w w' : World β} {dir source : Text} {seq retries : ℕ}

/-- Every operation from now on is done, and nothing is published. -/
def Calm (w : World β) : Prop := ∀ t, w.now ≤ t → w.script t = {}

/-- What fetching does in the meantime. -/
structure Calmly (w w' : World β) : Prop where
  roots : w'.roots = w.roots
  calm : Calm w → Calm w' ∧ w'.sources = w.sources
  kept : ∀ dir seq, ((w.caches dir).oscs seq).isSome → ((w'.caches dir).oscs seq).isSome

instance : Std.Refl (Calmly (β := β)) := ⟨fun _ => ⟨rfl, fun h => ⟨h, rfl⟩, fun _ _ h => h⟩⟩

instance : IsTrans (World β) Calmly where
  trans _ _ _ h h' := by
    refine ⟨h'.roots.trans h.roots, fun hc => ?_,
      fun dir seq hs => h'.kept dir seq (h.kept dir seq hs)⟩
    obtain ⟨hc', hsources⟩ := h.calm hc
    obtain ⟨hc'', hsources'⟩ := h'.calm hc'
    exact ⟨hc'', hsources'.trans hsources⟩

/-! ### Operations -/

lemma calmly_pass : Calmly w w.pass := by
  refine ⟨rfl, fun hc => ⟨fun t ht => hc t (Nat.le_of_succ_le ht), ?_⟩, fun _ _ h => h⟩
  rw [World.pass, hc w.now le_rfl]
  rfl

lemma attempt_calmly (hc : Calm w) :
    Moves Calmly False (attempt : Run β Verdict) w fun verdict _ => verdict = .answers := by
  have hverdict : (w.script w.now).verdict = .answers := by rw [hc w.now le_rfl]
  have hnext : Moves Calmly False (next : Run β Verdict) w fun verdict _ => verdict = .answers :=
    .ok run_next ⟨calmly_pass, hverdict⟩
  refine .bind hnext fun verdict w₁ _ hv => ?_
  subst hv
  exact .pure rfl

lemma operation_calmly {act : World β → World β} {Q : Unit → World β → Prop} (hc : Calm w)
    (h : ∀ w', Calmly w w' → Calmly w' (act w') ∧ Q () (act w')) :
    Moves Calmly False (operation act) w Q := by
  refine .bind (attempt_calmly hc) fun verdict w₁ h₁ hv => ?_
  subst hv
  exact .update (h w₁ h₁).1 (h w₁ h₁).2

/-- A request gets what is there. -/
lemma request_calmly {read : World β → Option α} (hc : Calm w)
    (hread : ∀ w', Calmly w w' → read w' = read w) :
    Moves Calmly False (request read (retries + 1)) w fun r _ => r = read w := by
  refine .bind (attempt_calmly hc) fun verdict w₁ h₁ hv => ?_
  subst hv
  refine .bind (P := fun w₂ _ => w₂ = w₁) (.read rfl) fun w₂ _ _ hw₂ => ?_
  subst hw₂
  exact .pure (hread w₂ h₁)

lemma calmly_setState {text : Option Text} : Calmly w (w.setCache dir (Cache.setState seq text)) :=
  ⟨rfl, fun hc => ⟨hc, rfl⟩, fun dir' seq' h => by rwa [oscs_setState]⟩

lemma calmly_setOsc {content : β} : Calmly w (w.setCache dir (Cache.setOsc seq content)) := by
  refine ⟨rfl, fun hc => ⟨hc, rfl⟩, fun dir' seq' h => ?_⟩
  rw [oscs_setOsc]
  split_ifs
  · rfl
  · exact h

lemma writeState_calmly {text : Text} (hc : Calm w) :
    Moves Calmly False (writeState dir seq text : Run β Unit) w fun _ _ => True := by
  have hverdict : (w.script w.now).verdict = .answers := by rw [hc w.now le_rfl]
  have hnext : Moves Calmly False (next : Run β Verdict) w fun verdict _ => verdict = .answers :=
    .ok run_next ⟨calmly_pass, hverdict⟩
  refine .bind hnext fun verdict w₁ _ hv => ?_
  subst hv
  exact .update calmly_setState trivial

/-! ### Fetching -/

/-- A source has both files of a sequence, with a state that can be read. -/
def Has (source : Source β) (seq : ℕ) : Prop :=
  (∃ text ∈ source.states (sequencePath seq), (parseStateText text).isSome) ∧
    (source.oscs (sequencePath seq)).isSome

lemma cachedTimestamp_calmly (hc : Calm w) :
    Moves Calmly False (cachedTimestamp dir seq) w fun _ _ => True := by
  refine .bind (P := fun _ w' => w' = w) (.read rfl) fun a w₁ _ hw => ?_
  subst hw
  cases (a.caches dir).states seq with
  | none => exact .pure trivial
  | some text =>
    dsimp only
    cases parseStateText text with
    | some state => exact .pure trivial
    | none =>
      exact .bind (operation_calmly (Q := fun _ _ => True) hc fun _ _ => ⟨calmly_setState, trivial⟩)
        fun _ _ _ _ => .pure trivial

lemma fetchState_calmly (hc : Calm w) (hthere : Has (w.sources source) seq) :
    Moves Calmly False (fetchState dir source (retries + 1) seq) w fun r _ => r.isSome := by
  refine .bind (cachedTimestamp_calmly hc) fun known w₁ h₁ _ => ?_
  obtain ⟨hc₁, hsources⟩ := h₁.calm hc
  cases known with
  | some ts => exact .pure rfl
  | none =>
    obtain ⟨text, htext, hparse⟩ := hthere.1
    have hread : ∀ w', Calmly w₁ w' → (w'.sources source).states (sequencePath seq) =
        (w₁.sources source).states (sequencePath seq) := fun w' h' => by rw [(h'.calm hc₁).2]
    refine .bind (request_calmly hc₁ hread) fun r w₂ h₂ hr => ?_
    rw [hsources, htext] at hr
    subst hr
    refine .bind (writeState_calmly (h₂.calm hc₁).1) fun _ _ _ _ => ?_
    obtain ⟨state, hstate⟩ := Option.isSome_iff_exists.mp hparse
    rw [hstate]
    exact .pure rfl

lemma fetchOsc_calmly (hc : Calm w) (hthere : Has (w.sources source) seq) :
    Moves Calmly False (fetchOsc dir source (retries + 1) seq) w fun r w' =>
      r = true ∧ ((w'.caches dir).oscs seq).isSome := by
  refine .bind (P := fun a w' => a = w ∧ w' = w) (.read ⟨rfl, rfl⟩) fun a w₁ _ ha => ?_
  obtain ⟨rfl, rfl⟩ := ha
  split_ifs with hcached
  · exact .pure ⟨rfl, hcached⟩
  obtain ⟨content, hcontent⟩ := Option.isSome_iff_exists.mp hthere.2
  have hread : ∀ w', Calmly w₁ w' → (w'.sources source).oscs (sequencePath seq) =
      (w₁.sources source).oscs (sequencePath seq) := fun w' h' => by rw [(h'.calm hc).2]
  refine .bind (request_calmly hc hread) fun r w₂ h₂ hr => ?_
  rw [hcontent] at hr
  subst hr
  have hset : ∀ w' :
      World β, (((w'.setCache dir (Cache.setOsc seq content)).caches dir).oscs seq).isSome := by
    intro w'
    rw [oscs_setOsc, if_pos ⟨rfl, rfl⟩]
    rfl
  refine .bind (operation_calmly (Q := fun _ _ => True) (h₂.calm hc).1 fun w' _ =>
    ⟨refl_of _ w', trivial⟩) fun _ w₃ h₃ _ => ?_
  refine .bind (operation_calmly (Q := fun _ w' => ((w'.caches dir).oscs seq).isSome)
    (h₃.calm (h₂.calm hc).1).1 fun w' _ => ⟨calmly_setOsc, hset w'⟩) fun _ _ _ hdone => ?_
  exact .pure ⟨rfl, hdone⟩

lemma fetch_calmly (hc : Calm w) (hthere : Has (w.sources source) seq) :
    Moves Calmly False (fetch dir source (retries + 1) seq) w fun r w' =>
      ∃ x ∈ r, x.seq = seq ∧ ((w'.caches dir).oscs x.seq).isSome := by
  refine .bind (fetchState_calmly hc hthere) fun r w₁ h₁ hr => ?_
  obtain ⟨ts, rfl⟩ := Option.isSome_iff_exists.mp hr
  obtain ⟨hc₁, hsources⟩ := h₁.calm hc
  refine .bind (fetchOsc_calmly hc₁ (hsources ▸ hthere)) fun there w₂ h₂ hcached => ?_
  obtain ⟨rfl, hcached⟩ := hcached
  exact .pure ⟨_, rfl, rfl, hcached⟩

/-- The loop fetches all there is, or as much as it may. -/
lemma fetchMore_calmly {left latest : ℕ} (hc : Calm w)
    (hthere : ∀ k, seq ≤ k → k ≤ latest → Has (w.sources source) k) :
    Moves Calmly False (fetchMore dir source (retries + 1) latest left seq) w fun xs w' =>
      xs.map FetchResult.seq = List.range' seq (min left (latest + 1 - seq)) ∧
        ∀ x ∈ xs, ((w'.caches dir).oscs x.seq).isSome := by
  induction left generalizing w seq with
  | zero => exact .pure ⟨by rw [Nat.zero_min]; rfl, fun _ hx => absurd hx List.not_mem_nil⟩
  | succ left ih =>
    rw [fetchMore]
    split_ifs with hlatest
    · have hle : seq ≤ latest := by omega
      refine .bind (fetch_calmly hc (hthere seq le_rfl hle)) fun r w₁ h₁ hr => ?_
      obtain ⟨x, rfl, hseq, hcached⟩ := hr
      obtain ⟨hc₁, hsources⟩ := h₁.calm hc
      have hrest : ∀ k, seq + 1 ≤ k → k ≤ latest → Has (w₁.sources source) k := fun k hk hk' =>
        hsources ▸ hthere k (by omega) hk'
      refine .bind (ih hc₁ hrest) fun xs w₂ h₂ hxs => ?_
      refine .pure ⟨?_, List.forall_mem_cons.mpr ⟨h₂.kept _ _ hcached, hxs.2⟩⟩
      have hcount : min (left + 1) (latest + 1 - seq) =
          min left (latest + 1 - (seq + 1)) + 1 := by omega
      rw [List.map_cons, hxs.1, hseq, hcount, List.range'_succ]
    · have hcount : min (left + 1) (latest + 1 - seq) = 0 := by omega
      exact .pure ⟨by rw [hcount]; rfl, fun _ hx => absurd hx List.not_mem_nil⟩

/-- A source has told its latest sequence, and has the sequences up to it. -/
structure Complete (source : Source β) (first latest : ℕ) : Prop where
  head : ∃ text ∈ source.head, ∃ ts, parseStateText text = some ((latest : ℤ), ts)
  has : ∀ seq, first < seq → seq ≤ latest → Has source seq

lemma fetchRange_calmly {first latest maxDiffs : ℕ} (hc : Calm w)
    (hall : Complete (w.sources source) first latest) :
    Moves Calmly False (fetchRange dir source (retries + 1) (first + 1) maxDiffs) w fun xs w' =>
      xs.map FetchResult.seq = List.range' (first + 1) (min maxDiffs (latest - first)) ∧
        ∀ x ∈ xs, ((w'.caches dir).oscs x.seq).isSome := by
  have hread : ∀ w', Calmly w w' → (w'.sources source).head = (w.sources source).head :=
    fun w' h' => by
    rw [(h'.calm hc).2]
  have hlatest : Moves Calmly False (latestSequence source (retries + 1) : Run β ℤ) w fun n _ =>
      n = latest := by
    obtain ⟨text, htext, ts, hparse⟩ := hall.head
    refine .bind (request_calmly hc hread) fun r w₁ _ hr => ?_
    rw [htext] at hr
    subst hr
    dsimp only
    rw [hparse]
    exact .pure rfl
  refine .bind hlatest fun n w₁ h₁ hn => ?_
  subst hn
  obtain ⟨hc₁, hsources⟩ := h₁.calm hc
  have hcount : latest + 1 - (first + 1) = latest - first := by omega
  exact hcount ▸ fetchMore_calmly hc₁ fun k hk hk' => hsources ▸ hall.has k hk hk'

/-! ### Runs -/

/-- The manifest of a root names the source. -/
def Recorded (source : Text) (root : Root β) : Prop :=
  ∃ s, root.replicationSource = some s ∧ s ≠ [] ∧ rstrip s = source

/-- Where a root stands that follows a source. -/
structure At (source : Text) (latest : ℕ) (name : Text) (n : ℕ) (w : World β) : Prop where
  calm : Calm w
  recorded : Recorded source (w.roots name)
  complete : Complete (w.sources source) n latest
  sequence : (w.roots name).replicationSequence.getD 0 = n

section Runs

variable {name : Text} {n latest : ℕ} {opts : UpdateOptions}

lemma At.calmly (h : At source latest name n w) (hw : Calmly w w') :
    At source latest name n w' := by
  obtain ⟨hc, hsources⟩ := hw.calm h.calm
  exact ⟨hc, hw.roots ▸ h.recorded, hsources ▸ h.complete, hw.roots ▸ h.sequence⟩

lemma chosenSource_recorded {root : Root β} (hroot : Recorded source root)
    (hnamed : ∀ s ∈ opts.source, s ≠ [] → rstrip s = source) :
    ∃ s, (chosenSource opts root).filter (fun source => !source.isEmpty) = some s ∧ s ≠ [] ∧
      rstrip s = source := by
  obtain ⟨recorded, hrecorded, hne, hstrip⟩ := hroot
  rw [chosenSource, hrecorded]
  cases hopts : opts.source.filter fun source => !source.isEmpty with
  | none => exact ⟨recorded, by simp [hne], hne, hstrip⟩
  | some s =>
    obtain ⟨hs, hs'⟩ := Option.filter_eq_some_iff.mp hopts
    have hne' : s ≠ [] := by simpa using hs'
    exact ⟨s, by simp [hne'], hne', hnamed s hs hne'⟩

lemma readOsc_calmly {x : FetchResult} (hx : ((w.caches dir).oscs x.seq).isSome) :
    Moves Calmly False (readOsc dir x) w fun a _ => a.seq = x.seq ∧ True := by
  refine .bind (P := fun a _ => a = w) (.read rfl) fun a w₁ _ ha => ?_
  subst ha
  obtain ⟨content, hcontent⟩ := Option.isSome_iff_exists.mp hx
  rw [hcontent]
  exact .pure ⟨rfl, trivial⟩

/-- Manifests come one after the other. -/
lemma Complete.from {s : Source β} {k : ℕ} (h : Complete s n latest) (hk : n ≤ k) :
    Complete s k latest :=
  ⟨h.head, fun seq hseq => h.has seq (by omega)⟩

lemma At.apply {k : ℕ} {s : Text} {batch : List (Applied β)} (h : At source latest name n w)
    (hne : s ≠ []) (hstrip : rstrip s = source) (hk : n ≤ k) :
    At source latest name k (w.apply name s k batch) := by
  have hroot : (w.apply name s k batch).roots name =
      ⟨some k, some s, (w.roots name).applied ++ batch⟩ :=
    Function.update_self _ _ _
  refine ⟨h.calm, ?_, h.complete.from hk, ?_⟩
  · rw [hroot]
    exact ⟨s, rfl, hne, hstrip⟩
  · rw [hroot]
    rfl

/-- A run brings a root as far as it may, and to the latest sequence at most. -/
lemma runOnce_at (h : At source latest opts.root n w) (hle : n ≤ latest)
    (hnamed : ∀ s ∈ opts.source, s ≠ [] → rstrip s = source) :
    Ends (runOnce opts) w (fun _ w' => At source latest opts.root
      (min (n + opts.maxDiffs) latest) w') fun _ _ => False := by
  have hidle : ∀ {w : World β}, Calm w → Moves Calmly False (operation id) w fun _ _ =>
      True := fun hc =>
    operation_calmly hc fun w' _ => ⟨refl_of _ w', trivial⟩
  refine .bind (hidle h.calm).returns fun _ w₁ _ h₁ => ?_
  have hat₁ := h.calmly h₁.1
  refine .bind (P := fun a w' => a = w₁ ∧ w' = w₁) (.read ⟨rfl, rfl⟩) fun a w' _ ha => ?_
  obtain ⟨rfl, rfl⟩ := ha
  obtain ⟨s, hchosen, hne, hstrip⟩ := chosenSource_recorded hat₁.recorded hnamed
  dsimp only
  rw [hchosen, hat₁.sequence]
  dsimp only
  rw [hstrip]
  refine .bind (fetchRange_calmly hat₁.calm hat₁.complete).returns fun fetched w₂ _ h₂ => ?_
  obtain ⟨hcalmly₂, hseqs, hcached⟩ := h₂
  have hat₂ := hat₁.calmly hcalmly₂
  have hlast := congrArg List.getLast? hseqs
  rw [List.getLast?_map, List.getLast?_range'] at hlast
  cases hgot : fetched.getLast? with
  | none =>
    -- Nothing is left to fetch, or nothing may be fetched.
    rw [hgot, Option.map_none] at hlast
    have hcount : min opts.maxDiffs (latest - n) = 0 := by
      by_contra hcount
      rw [if_neg hcount] at hlast
      cases hlast
    have hsame : min (n + opts.maxDiffs) latest = n := by omega
    exact .pure (hsame.symm ▸ hat₂)
  | some last =>
    rw [hgot, Option.map_some] at hlast
    have hseq : last.seq = min (n + opts.maxDiffs) latest := by
      split_ifs at hlast with hcount
      have hlast := Option.some.inj hlast
      omega
    dsimp only
    have hread : ∀ x ∈ fetched, ∀ w'', Calmly w₂ w'' →
        Moves Calmly False (readOsc opts.tmpdir x) w'' fun a _ => a.seq = x.seq ∧
          True := fun x hx w'' hl =>
      readOsc_calmly (hl.kept _ _ (hcached x hx))
    refine .bind (Moves.mapM hread).returns fun batch w₃ _ h₃ => ?_
    have hat₃ := hat₂.calmly h₃.1
    refine .bind (hidle hat₃.calm).returns fun _ w₄ _ h₄ => ?_
    have hat₄ := hat₃.calmly h₄.1
    refine .bind (P := fun _ w' => At source latest opts.root last.seq w') ?_ fun _ w₅ _ hat₅ => ?_
    · refine .bind (attempt_calmly hat₄.calm).returns fun verdict w₅ _ h₅ => ?_
      have hat₅ := hat₄.calmly h₅.1
      obtain ⟨-, rfl⟩ := h₅
      exact .update (hat₅.apply hne hstrip (by omega))
    · exact .bind (hidle hat₅.calm).returns fun _ w₆ _ h₆ => .pure (hseq ▸ hat₅.calmly h₆.1)

/-- **The updater catches up.** From any state, with whatever earlier runs have left in the
directories, as soon as nothing fails and the source has all sequences up to its latest: runs bring
a root that follows the source as far as they may together, and to the latest sequence at most. -/
theorem catches_up {runs : List UpdateOptions} (hcalm : Calm w)
    (hrecorded : Recorded source (w.roots name))
    (hcomplete : Complete (w.sources source) ((w.roots name).replicationSequence.getD 0) latest)
    (hle : (w.roots name).replicationSequence.getD 0 ≤ latest)
    (hruns : ∀ opts ∈ runs, opts.root = name ∧ ∀ s ∈ opts.source, s ≠ [] → rstrip s = source) :
    ((runs.foldl after w).roots name).replicationSequence.getD 0 =
      min ((w.roots name).replicationSequence.getD 0 +
        (runs.map UpdateOptions.maxDiffs).sum) latest := by
  have hat : At source latest name ((w.roots name).replicationSequence.getD 0) w :=
    ⟨hcalm, hrecorded, hcomplete, rfl⟩
  generalize (w.roots name).replicationSequence.getD 0 = n at hat hle
  clear hcalm hrecorded hcomplete
  induction runs generalizing w n with
  | nil =>
    rw [List.foldl_nil, hat.sequence, List.map_nil, List.sum_nil]
    omega
  | cons opts runs ih =>
    obtain ⟨rfl, hnamed⟩ := hruns opts (by simp)
    have hafter : At source latest opts.root (min (n + opts.maxDiffs) latest) (after w opts) := by
      rcases runOnce_at hat hle hnamed with ⟨run, hat'⟩ | ⟨_, hfalse⟩
      · rw [after, run]
        exact hat'
      · exact hfalse.elim
    rw [List.foldl_cons, ih (fun o ho => hruns o (by simp [ho])) _ hafter (by omega), List.map_cons,
      List.sum_cons]
    omega

end Runs

/-- A directory in which the beginning of a state is left. -/
def beginningLeft : World ℕ where
  sources := publishAll (fun _ => {}) (twoSequences ['s'] id)
  caches _ := { states := fun seq => if seq = 1 then some ((stateText 1).take 10) else none }
  roots _ := { replicationSequence := none, replicationSource := some ['s'] }
  script _ := {}

theorem catches_up_beginningLeft :
    (([{ minutely with maxDiffs := 1 }, minutely].foldl after beginningLeft).roots
      ['r']).replicationSequence.getD 0 = 2 := by
  have hcomplete : Complete (beginningLeft.sources ['s']) 0 2 := by
    refine ⟨⟨stateText 2, by decide, some "2026-01-01T00:00:00Z".toList, by decide⟩, ?_⟩
    rintro (_ | _ | _ | seq) hseq hseq'
    · exact absurd hseq (by omega)
    · exact ⟨⟨stateText 1, by decide, by decide⟩, by decide⟩
    · exact ⟨⟨stateText 2, by decide, by decide⟩, by decide⟩
    · exact absurd hseq' (by omega)
  have hrecorded : Recorded ['s'] (beginningLeft.roots ['r']) := ⟨['s'], rfl, by simp, by decide⟩
  have hruns : ∀ opts ∈ [{ minutely with maxDiffs := 1 }, minutely],
      opts.root = ['r'] ∧ ∀ s ∈ opts.source, s ≠ [] → rstrip s = ['s'] := by simp [minutely]
  exact catches_up (fun _ _ => rfl) hrecorded hcomplete (by decide) hruns

end OsmParquet.CatchUp
