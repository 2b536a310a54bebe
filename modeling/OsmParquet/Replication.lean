import Mathlib.Logic.Function.Basic
import OsmParquet.Procedures
import OsmParquet.SequencePaths

/-!
An updater that follows a replication source.

A run asks the source for its latest sequence, fetches the sequences after that of its root, one by
one, into a directory, and applies those it has got as one batch. The directory is not emptied: what
a run has fetched is there for the next one. Requests fail, the source publishes more in the
meantime, and the process may be killed before any operation, or while it writes a file.
-/

namespace OsmParquet.Replication

open OsmParquet.Procedures OsmParquet.SequencePaths

variable {α β : Type}

/-! ### The world of an updater -/

/-- What a source has published: `state.txt`, and two files for each sequence, under its path. -/
structure Source (β : Type) where
  head : Option Text := none
  states : Text → Option Text := fun _ => none
  oscs : Text → Option β := fun _ => none

inductive Publication (β : Type)
  | head (text : Text)
  | state (seq : ℕ) (text : Text)
  | osc (seq : ℕ) (content : β)

/-- A file that is there stays as it is. -/
def place {γ : Type} (files : Text → Option γ) (path : Text) (content : γ) : Text → Option γ :=
  Function.update files path (some ((files path).getD content))

def Source.publish (source : Source β) : Publication β → Source β
  | .head text => { source with head := some text }
  | .state seq text => { source with states := place source.states (sequencePath seq) text }
  | .osc seq content => { source with oscs := place source.oscs (sequencePath seq) content }

/-- `<seq>.state.txt` and `<seq>.osc.gz` in a directory. -/
structure Cache (β : Type) where
  states : ℕ → Option Text := fun _ => none
  oscs : ℕ → Option β := fun _ => none

structure FetchResult where
  seq : ℕ
  timestamp : Option Text

/-- A sequence that has been applied to a root. -/
structure Applied (β : Type) where
  seq : ℕ
  content : β
  timestamp : Option Text

/-- What the latest manifest of a root says, and what has been applied. -/
structure Root (β : Type) where
  replicationSequence : Option ℕ
  replicationSource : Option Text
  applied : List (Applied β) := []

/-- How an operation goes. -/
inductive Verdict
  | answers
  | notFound
  /-- The connection breaks, or the server has an error of its own. -/
  | fails
  | refuses
  | kills
  /-- The process is killed when it has written so much. -/
  | killsWriting (length : ℕ)
  deriving DecidableEq

/-- What is published before an operation, and how it goes. -/
structure Happening (β : Type) where
  published : List (Text × Publication β) := []
  verdict : Verdict := .answers

structure World (β : Type) where
  sources : Text → Source β := fun _ => {}
  caches : Text → Cache β := fun _ => {}
  roots : Text → Root β
  script : ℕ → Happening β
  now : ℕ := 0

def publishAll (sources : Text → Source β) (published : List (Text × Publication β)) :
    Text → Source β :=
  published.foldl (fun sources p => Function.update sources p.1 ((sources p.1).publish p.2)) sources

def World.pass (w : World β) : World β :=
  { w with sources := publishAll w.sources (w.script w.now).published, now := w.now + 1 }

inductive Ended
  | raised
  | killed

abbrev Run (β α : Type) := Proc Ended (World β) α

/-! ### Operations -/

def next : Run β Verdict := do
  let w ← get
  modify World.pass
  return (w.script w.now).verdict

def attempt : Run β Verdict := do
  match ← next with
  | .kills | .killsWriting _ => throw .killed
  | verdict => return verdict

/-- An operation on files, which is done or not. -/
def operation (act : World β → World β) : Run β Unit := do
  match ← attempt with
  | .answers => modify act
  | _ => throw .raised

/-- `_get`: what is there under an address, or nothing for 404. -/
def request (read : World β → Option α) : ℕ → Run β (Option α)
  | 0 => throw .raised
  | retries + 1 => do
    match ← attempt with
    | .answers => return read (← get)
    | .notFound => return none
    | .refuses => throw .raised
    | _ => request read retries

def World.setCache (dir : Text) (change : Cache β → Cache β) (w : World β) : World β :=
  { w with caches := Function.update w.caches dir (change (w.caches dir)) }

def Cache.setState (seq : ℕ) (text : Option Text) (cache : Cache β) : Cache β :=
  { cache with states := Function.update cache.states seq text }

def Cache.setOsc (seq : ℕ) (content : β) (cache : Cache β) : Cache β :=
  { cache with oscs := Function.update cache.oscs seq (some content) }

/-- `state_path.write_text(text)`, which is not atomic. -/
def writeState (dir : Text) (seq : ℕ) (text : Text) : Run β Unit := do
  match ← next with
  | .answers => modify (World.setCache dir (Cache.setState seq (some text)))
  | .killsWriting length =>
    modify (World.setCache dir (Cache.setState seq (some (text.take length))))
    throw .killed
  | .kills => throw .killed
  | _ => throw .raised

/-! ### Fetching -/

section Fetching

variable (dir source : Text) (retries : ℕ)

/-- The timestamp in the directory; a file that cannot be read is removed. -/
def cachedTimestamp (seq : ℕ) : Run β (Option (Option Text)) := do
  match ((← get).caches dir).states seq with
  | none => return none
  | some text =>
    match parseStateText text with
    | some (_, timestamp) => return some timestamp
    | none =>
      operation (World.setCache dir (Cache.setState seq none))
      return none

def fetchState (seq : ℕ) : Run β (Option (Option Text)) := do
  match ← cachedTimestamp dir seq with
  | some timestamp => return some timestamp
  | none =>
    match ← request (fun w => (w.sources source).states (sequencePath seq)) retries with
    | none => return none
    | some text =>
      writeState dir seq text
      match parseStateText text with
      | some (_, timestamp) => return some timestamp
      | none => throw .raised

/-- The diff is written under another name first. -/
def fetchOsc (seq : ℕ) : Run β Bool := do
  if (((← get).caches dir).oscs seq).isSome then return true
  else
    match ← request (fun w => (w.sources source).oscs (sequencePath seq)) retries with
    | none => return false
    | some content =>
      operation id
      operation (World.setCache dir (Cache.setOsc seq content))
      return true

def fetch (seq : ℕ) : Run β (Option FetchResult) := do
  match ← fetchState dir source retries seq with
  | none => return none
  | some timestamp =>
    if ← fetchOsc dir source retries seq then return some ⟨seq, timestamp⟩ else return none

/-- The loop of `fetch_range`, with what is left of `max_diffs`. -/
def fetchMore (latest : ℤ) : ℕ → ℕ → Run β (List FetchResult)
  | 0, _ => return []
  | left + 1, seq => do
    if (seq : ℤ) ≤ latest then
      match ← fetch dir source retries seq with
      | none => return []
      | some result => return result :: (← fetchMore latest left (seq + 1))
    else return []

def latestSequence : Run β ℤ := do
  match ← request (fun w => (w.sources source).head) retries with
  | none => throw .raised
  | some text =>
    match parseStateText text with
    | some (latest, _) => return latest
    | none => throw .raised

def fetchRange (fromSeq maxDiffs : ℕ) : Run β (List FetchResult) := do
  let latest ← latestSequence source retries
  fetchMore dir source retries latest maxDiffs fromSeq

end Fetching

/-! ### Runs -/

structure UpdateOptions where
  root : Text
  source : Option Text := none
  maxDiffs : ℕ := 60
  tmpdir : Text

def rstrip (source : Text) : Text := (source.reverse.dropWhile (· = '/')).reverse

/-- `opts.source or man.replication_source` -/
def chosenSource (opts : UpdateOptions) (root : Root β) : Option Text :=
  (opts.source.filter fun source => !source.isEmpty).or root.replicationSource

/-- A diff is read for the batch. -/
def readOsc (dir : Text) (result : FetchResult) : Run β (Applied β) := do
  match ((← get).caches dir).oscs result.seq with
  | none => throw .raised
  | some content => return ⟨result.seq, content, result.timestamp⟩

/-- The manifest after a batch. -/
def World.apply (name source : Text) (lastSeq : ℕ) (batch : List (Applied β)) (w : World β) :
    World β :=
  let root : Root β := ⟨some lastSeq, some source, (w.roots name).applied ++ batch⟩
  { w with roots := Function.update w.roots name root }

/-- What a run has applied, or nothing. Whatever is done with the batch ends with the manifest,
before which nothing of it can be seen. -/
def runOnce (opts : UpdateOptions) : Run β (Option (List FetchResult)) := do
  operation id
  let root := (← get).roots opts.root
  match (chosenSource opts root).filter fun source => !source.isEmpty with
  | none => throw .raised
  | some source =>
    let fetched ← fetchRange opts.tmpdir (rstrip source) 5
      (root.replicationSequence.getD 0 + 1) opts.maxDiffs
    match fetched.getLast? with
    | none => return none
    | some last =>
      let batch ← fetched.mapM (readOsc opts.tmpdir)
      operation id
      operation (World.apply opts.root source last.seq batch)
      operation id
      return some fetched

/-- The world after a run, however it ends. -/
def after (w : World β) (opts : UpdateOptions) : World β :=
  match runOnce opts w with
  | .ok _ w' => w'
  | .error _ w' => w'

/-! ### What there is comes from the sources -/

/-- A source publishes it at some time. -/
def Published (script : ℕ → Happening β) (source : Text) (p : Publication β) : Prop :=
  ∃ t, (source, p) ∈ (script t).published

/-- No file is cut while it is written. -/
def Whole (script : ℕ → Happening β) : Prop := ∀ t length, (script t).verdict ≠ .killsWriting length

/-- What is there of a text that was written. -/
def Part (script : ℕ → Happening β) (text full : Text) : Prop :=
  text <+: full ∧ (Whole script → text = full)

/-- Sources have what they publish, under the path of its sequence. -/
structure Sourced (script : ℕ → Happening β) (sources : Text → Source β) : Prop where
  states : ∀ s path, ∀ text ∈ (sources s).states path, ∃ seq, sequencePath seq = path ∧
    Published script s (.state seq text)
  oscs : ∀ s path, ∀ content ∈ (sources s).oscs path, ∃ seq, sequencePath seq = path ∧
    Published script s (.osc seq content)

/-- Every directory has what its source publishes, of a state maybe only the beginning. -/
structure Honest (script : ℕ → Happening β) (owner : Text → Text) (w : World β) : Prop where
  scripted : w.script = script
  sourced : Sourced script w.sources
  states : ∀ dir seq, ∀ text ∈ (w.caches dir).states seq, ∃ full, Part script text full ∧
    Published script (owner dir) (.state seq full)
  oscs : ∀ dir seq, ∀ content ∈ (w.caches dir).oscs seq, Published script (owner dir)
    (.osc seq content)

/-- What fetching does to the world. -/
structure Later (script : ℕ → Happening β) (owner : Text → Text) (w w' : World β) : Prop where
  roots : w'.roots = w.roots
  kept : ∀ dir seq, ((w.caches dir).oscs seq).isSome → ((w'.caches dir).oscs seq).isSome
  honest : Honest script owner w → Honest script owner w'

section Fetching

variable {script : ℕ → Happening β} {owner : Text → Text} {w w' : World β} {dir : Text} {seq : ℕ}

instance : Std.Refl (Later script owner) := ⟨fun _ => ⟨rfl, fun _ _ h => h, id⟩⟩

instance : IsTrans (World β) (Later script owner) :=
  ⟨fun _ _ _ h h' => ⟨h'.roots.trans h.roots, fun dir seq hs => h'.kept dir seq (h.kept dir seq hs),
    h'.honest ∘ h.honest⟩⟩

lemma mem_place {γ : Type} {files : Text → Option γ} {path path' : Text} {content x : γ}
    (h : x ∈ place files path content path') : path = path' ∧ content = x ∨ x ∈ files path' := by
  rw [place, Function.update_apply] at h
  split_ifs at h with hpath
  · subst hpath
    cases hthere : files path' with
    | none =>
      rw [hthere] at h
      exact .inl ⟨rfl, Option.mem_some_iff.mp h⟩
    | some old =>
      rw [hthere] at h
      exact .inr h
  · exact .inr h

lemma sourced_publish {sources : Text → Source β} {name : Text} {p : Publication β}
    (h : Sourced script sources) (hp : Published script name p) :
    Sourced script (Function.update sources name ((sources name).publish p)) := by
  have hcases : ∀ s, Function.update sources name ((sources name).publish p) s = sources s ∨
      s = name ∧ Function.update sources name ((sources name).publish p) s =
        (sources name).publish p := fun s => by
    by_cases hs : s = name
    · subst hs
      exact .inr ⟨rfl, Function.update_self _ _ _⟩
    · exact .inl (Function.update_of_ne hs _ _)
  constructor
  · intro s path text htext
    rcases hcases s with hs | ⟨rfl, hs⟩
    · exact h.states s path text (hs ▸ htext)
    rw [hs] at htext
    cases p with
    | state seq new =>
      rcases mem_place htext with ⟨hpath, rfl⟩ | hold
      · exact ⟨seq, hpath, hp⟩
      · exact h.states s path text hold
    | head new => exact h.states s path text htext
    | osc seq new => exact h.states s path text htext
  · intro s path content hcontent
    rcases hcases s with hs | ⟨rfl, hs⟩
    · exact h.oscs s path content (hs ▸ hcontent)
    rw [hs] at hcontent
    cases p with
    | osc seq new =>
      rcases mem_place hcontent with ⟨hpath, rfl⟩ | hold
      · exact ⟨seq, hpath, hp⟩
      · exact h.oscs s path content hold
    | head new => exact h.oscs s path content hcontent
    | state seq new => exact h.oscs s path content hcontent

lemma sourced_publishAll {sources : Text → Source β} {published : List (Text × Publication β)}
    (h : Sourced script sources) (hp : ∀ p ∈ published, Published script p.1 p.2) :
    Sourced script (publishAll sources published) := by
  induction published generalizing sources with
  | nil => exact h
  | cons p ps ih => exact ih (sourced_publish h (hp p (by simp))) fun q hq => hp q (by simp [hq])

lemma Honest.pass (h : Honest script owner w) : Honest script owner w.pass where
  scripted := h.scripted
  sourced := sourced_publishAll h.sourced fun _ hp => ⟨w.now, h.scripted ▸ hp⟩
  states := h.states
  oscs := h.oscs

lemma later_pass : Later script owner w w.pass := ⟨rfl, fun _ _ h => h, Honest.pass⟩

/-! ### Operations -/

lemma run_next : (next : Run β Verdict) w = .ok (w.script w.now).verdict w.pass := rfl

lemma next_moves {Q : Verdict → World β → Prop} (h : Q (w.script w.now).verdict w.pass) :
    Moves (Later script owner) True (next : Run β Verdict) w Q := .ok run_next ⟨later_pass, h⟩

lemma attempt_moves : Moves (Later script owner) True
    (attempt : Run β Verdict) w fun _ _ => True := by
  refine .bind (next_moves (Q := fun _ _ => True) trivial) fun verdict w' _ _ => ?_
  cases verdict
  case kills => exact .throw trivial
  case killsWriting => exact .throw trivial
  all_goals exact .pure trivial

lemma operation_moves {act : World β → World β} {Q : Unit → World β → Prop}
    (h : ∀ w', Later script owner w w' → Later script owner w' (act w') ∧ Q () (act w')) :
    Moves (Later script owner) True (operation act) w Q := by
  refine .bind attempt_moves fun verdict w' hw' _ => ?_
  cases verdict
  case answers => exact .update (h w' hw').1 (h w' hw').2
  all_goals exact .throw trivial

lemma request_moves {read : World β → Option α} {P : α → Prop}
    (hread : ∀ w', Later script owner w w' → ∀ a ∈ read w', P a) {retries : ℕ} :
    Moves (Later script owner) True (request read retries) w fun r _ => ∀ a ∈ r, P a := by
  induction retries generalizing w with
  | zero => exact .throw trivial
  | succ retries ih =>
    refine .bind attempt_moves fun verdict w₁ h₁ _ => ?_
    have hagain : ∀ w', Later script owner w₁ w' → ∀ a ∈ read w', P a := fun w' h' =>
      hread w' (trans_of (Later script owner) h₁ h')
    cases verdict
    case answers =>
      refine .bind (P := fun w₂ _ => w₂ = w₁) (.read rfl) fun w₂ _ _ hw₂ => ?_
      subst hw₂
      exact .pure (hagain w₂ (refl_of _ w₂))
    case notFound => exact .pure fun a ha => absurd ha (Option.not_mem_none a)
    case refuses => exact .throw trivial
    all_goals exact ih hagain

section Files

variable (w : World β) (dir dir' : Text) (seq seq' : ℕ) (text : Option Text) (content : β)

lemma states_setState : ((w.setCache dir (Cache.setState seq text)).caches dir').states seq' =
    if dir' = dir ∧ seq' = seq then text else (w.caches dir').states seq' := by
  by_cases hd : dir' = dir
  · subst hd
    simp [World.setCache, Cache.setState, Function.update_apply]
  · simp [World.setCache, hd]

lemma oscs_setState : ((w.setCache dir (Cache.setState seq text)).caches dir').oscs =
    (w.caches dir').oscs := by
  by_cases hd : dir' = dir
  · subst hd
    simp [World.setCache, Cache.setState]
  · simp [World.setCache, hd]

lemma states_setOsc : ((w.setCache dir (Cache.setOsc seq content)).caches dir').states =
    (w.caches dir').states := by
  by_cases hd : dir' = dir
  · subst hd
    simp [World.setCache, Cache.setOsc]
  · simp [World.setCache, hd]

lemma oscs_setOsc : ((w.setCache dir (Cache.setOsc seq content)).caches dir').oscs seq' =
    if dir' = dir ∧ seq' = seq then some content else (w.caches dir').oscs seq' := by
  by_cases hd : dir' = dir
  · subst hd
    simp [World.setCache, Cache.setOsc, Function.update_apply]
  · simp [World.setCache, hd]

end Files

lemma later_setState {text : Option Text}
    (h : ∀ x ∈ text, ∃ full, Part script x full ∧ Published script (owner dir) (.state seq full)) :
    Later script owner w (w.setCache dir (Cache.setState seq text)) := by
  refine ⟨rfl, fun dir' seq' hthere => by rwa [oscs_setState],
    fun hw => ⟨hw.scripted, hw.sourced, ?_, ?_⟩⟩
  · intro dir' seq' x hx
    rw [states_setState] at hx
    split_ifs at hx with hsame
    · obtain ⟨rfl, rfl⟩ := hsame
      exact h x hx
    · exact hw.states dir' seq' x hx
  · intro dir' seq' x hx
    rw [oscs_setState] at hx
    exact hw.oscs dir' seq' x hx

lemma later_setOsc {content : β} (h : Published script (owner dir) (.osc seq content)) :
    Later script owner w (w.setCache dir (Cache.setOsc seq content)) := by
  refine ⟨rfl, fun dir' seq' hthere => ?_, fun hw => ⟨hw.scripted, hw.sourced, ?_, ?_⟩⟩
  · rw [oscs_setOsc]
    split_ifs
    · rfl
    · exact hthere
  · intro dir' seq' x hx
    rw [states_setOsc] at hx
    exact hw.states dir' seq' x hx
  · intro dir' seq' x hx
    rw [oscs_setOsc] at hx
    split_ifs at hx with hsame
    · obtain ⟨rfl, rfl⟩ := hsame
      obtain rfl := Option.mem_some_iff.mp hx
      exact h
    · exact hw.oscs dir' seq' x hx

/-- A state is written, or a part of it. -/
lemma writeState_moves {text : Text} (hw : Honest script owner w)
    (h : Published script (owner dir) (.state seq text)) :
    Moves (Later script owner) True (writeState dir seq text : Run β Unit) w fun _ _ => True := by
  have hfull : ∀ x ∈ some text, ∃ full, Part script x full ∧
      Published script (owner dir) (.state seq full) :=
    fun x hx => ⟨text, Option.mem_some_iff.mp hx ▸ ⟨List.prefix_rfl, fun _ => rfl⟩, h⟩
  refine .bind (next_moves (Q := fun verdict _ => verdict = (w.script w.now).verdict) rfl)
    fun verdict w' h' hv => ?_
  cases verdict with
  | answers => exact .update (later_setState hfull) trivial
  | killsWriting length =>
    refine .bind (.update (Q := fun _ _ => True) (later_setState fun x hx => ⟨text, ?_, h⟩) trivial)
      fun _ _ _ _ => .throw trivial
    obtain rfl := Option.mem_some_iff.mp hx
    exact ⟨List.take_prefix _ _, fun hwhole => absurd (hw.scripted ▸ hv.symm) (hwhole _ _)⟩
  | _ => exact .throw trivial

/-! ### Fetching -/

/-- A timestamp is read from what there is of the state that a source publishes. -/
def Timed (script : ℕ → Happening β) (source : Text) (seq : ℕ) (timestamp : Option Text) : Prop :=
  ∃ text full n, Part script text full ∧ Published script source (.state seq full) ∧
    parseStateText text = some (n, timestamp)

/-- What a fetch says of a sequence. -/
def Fetched (script : ℕ → Happening β) (source dir : Text) (x : FetchResult) (w : World β) : Prop :=
  ((w.caches dir).oscs x.seq).isSome ∧ Timed script source x.seq x.timestamp

lemma cachedTimestamp_moves (hw : Honest script owner w) :
    Moves (Later script owner) True (cachedTimestamp dir seq) w fun r _ =>
      ∀ ts ∈ r, Timed script (owner dir) seq ts := by
  refine .bind (P := fun a _ => a = w) (.read rfl) fun a w₁ h₁ ha => ?_
  subst ha
  cases htext : (a.caches dir).states seq with
  | none => exact .pure fun _ hts => absurd hts (Option.not_mem_none _)
  | some text =>
    obtain ⟨full, hpart, hpublished⟩ := hw.states dir seq text htext
    dsimp only
    cases hparse : parseStateText text with
    | some state =>
      refine .pure fun ts hts => ⟨text, full, state.1, hpart, hpublished, ?_⟩
      rw [hparse, ← Option.mem_some_iff.mp hts]
    | none =>
      dsimp only
      refine .bind (operation_moves (Q := fun _ _ => True) fun w₂ _ => ⟨later_setState ?_, trivial⟩)
        fun _ _ _ _ => ?_
      · exact fun x hx => absurd hx (Option.not_mem_none x)
      · exact .pure fun _ hts => absurd hts (Option.not_mem_none _)

lemma fetchState_moves {retries : ℕ} (hw : Honest script owner w) :
    Moves (Later script owner) True (fetchState dir (owner dir) retries seq) w fun r _ =>
      ∀ ts ∈ r, Timed script (owner dir) seq ts := by
  refine .bind (cachedTimestamp_moves hw) fun known w₁ h₁ hknown => ?_
  cases known with
  | some ts => exact .pure hknown
  | none =>
    have hread : ∀ w', Later script owner w₁ w' →
        ∀ text ∈ (w'.sources (owner dir)).states (sequencePath seq),
        Published script (owner dir) (.state seq text) := by
      intro w' h' text htext
      obtain ⟨seq', hpath, hpublished⟩ := ((trans_of _ h₁ h').honest hw).sourced.states
        _ _ text htext
      exact sequencePath_injective hpath ▸ hpublished
    refine .bind (request_moves hread) fun r w₂ h₂ hr => ?_
    cases r with
    | none => exact .pure fun _ hts => absurd hts (Option.not_mem_none _)
    | some text =>
      have hpublished := hr text rfl
      refine .bind (writeState_moves ((trans_of _ h₁ h₂).honest hw) hpublished) fun _ _ _ _ => ?_
      cases hparse : parseStateText text with
      | none => exact .throw trivial
      | some state =>
        refine .pure fun ts hts => ⟨text, text, state.1,
          ⟨List.prefix_rfl, fun _ => rfl⟩, hpublished, ?_⟩
        rw [hparse, ← Option.mem_some_iff.mp hts]

lemma fetchOsc_moves {retries : ℕ} (hw : Honest script owner w) :
    Moves (Later script owner) True (fetchOsc dir (owner dir) retries seq) w fun r w' =>
      r = true → ((w'.caches dir).oscs seq).isSome := by
  refine .bind (P := fun a w' => a = w ∧ w' = w) (.read ⟨rfl, rfl⟩) fun a w₁ _ ha => ?_
  obtain ⟨rfl, rfl⟩ := ha
  split_ifs with hthere
  · exact .pure fun _ => hthere
  have hread : ∀ w', Later script owner w₁ w' →
      ∀ content ∈ (w'.sources (owner dir)).oscs (sequencePath seq),
      Published script (owner dir) (.osc seq content) := by
    intro w' h' content hcontent
    obtain ⟨seq', hpath, hpublished⟩ := (h'.honest hw).sourced.oscs _ _ content hcontent
    exact sequencePath_injective hpath ▸ hpublished
  refine .bind (request_moves hread) fun r w₂ h₂ hr => ?_
  cases r with
  | none => exact .pure fun h => absurd h Bool.false_ne_true
  | some content =>
    refine .bind (operation_moves (Q := fun _ _ => True) fun w' _ => ⟨refl_of _ w', trivial⟩)
      fun _ w₃ _ _ => ?_
    have hset : ∀ w' :
        World β, (((w'.setCache dir (Cache.setOsc seq content)).caches dir).oscs seq).isSome := by
      intro w'
      rw [oscs_setOsc, if_pos ⟨rfl, rfl⟩]
      rfl
    refine .bind (operation_moves (Q := fun _ w' => ((w'.caches dir).oscs seq).isSome)
      fun w' _ => ⟨later_setOsc (hr content rfl), hset w'⟩) fun _ _ _ hdone => ?_
    exact .pure fun _ => hdone

lemma fetch_moves {retries : ℕ} (hw : Honest script owner w) :
    Moves (Later script owner) True (fetch dir (owner dir) retries seq) w fun r w' =>
      ∀ x ∈ r, x.seq = seq ∧ Fetched script (owner dir) dir x w' := by
  refine .bind (fetchState_moves hw) fun r w₁ h₁ hr => ?_
  cases r with
  | none => exact .pure fun _ hx => absurd hx (Option.not_mem_none _)
  | some ts =>
    refine .bind (fetchOsc_moves (h₁.honest hw)) fun there w₂ h₂ hthere => ?_
    cases there with
    | false => exact .pure fun _ hx => absurd hx (Option.not_mem_none _)
    | true =>
      refine .pure fun x hx => ?_
      obtain rfl := Option.mem_some_iff.mp hx
      exact ⟨rfl, hthere rfl, hr ts rfl⟩

/-- The sequences that are fetched follow each other. -/
lemma fetchMore_moves {retries left : ℕ} {latest : ℤ} (hw : Honest script owner w) :
    Moves (Later script owner) True (fetchMore dir (owner dir) retries latest left seq)
      w fun xs w' =>
      xs.map FetchResult.seq = List.range' seq xs.length ∧
        ∀ x ∈ xs, Fetched script (owner dir) dir x w' := by
  induction left generalizing w seq with
  | zero => exact .pure ⟨rfl, fun _ hx => absurd hx List.not_mem_nil⟩
  | succ left ih =>
    rw [fetchMore]
    split_ifs with hlatest
    · refine .bind (fetch_moves hw) fun r w₁ h₁ hr => ?_
      cases r with
      | none => exact .pure ⟨rfl, fun _ hx => absurd hx List.not_mem_nil⟩
      | some x =>
        obtain ⟨hseq, hthere, htimed⟩ := hr x rfl
        refine .bind (ih (h₁.honest hw)) fun xs w₂ h₂ hxs => ?_
        refine .pure ⟨?_, List.forall_mem_cons.mpr ⟨⟨h₂.kept _ _ hthere, htimed⟩, hxs.2⟩⟩
        rw [List.map_cons, List.length_cons, List.range'_succ, hxs.1, hseq]
    · exact .pure ⟨rfl, fun _ hx => absurd hx List.not_mem_nil⟩

lemma latestSequence_moves {source : Text} {retries : ℕ} :
    Moves (Later script owner) True (latestSequence source retries) w fun _ _ => True := by
  refine .bind (request_moves (P := fun _ => True) fun _ _ _ _ => trivial) fun r _ _ _ => ?_
  cases r with
  | none => exact .throw trivial
  | some text =>
    dsimp only
    cases parseStateText text with
    | none => exact .throw trivial
    | some state => exact .pure trivial

lemma fetchRange_moves {retries maxDiffs : ℕ} (hw : Honest script owner w) :
    Moves (Later script owner) True (fetchRange dir (owner dir) retries seq maxDiffs) w fun xs w' =>
      xs.map FetchResult.seq = List.range' seq xs.length ∧
        ∀ x ∈ xs, Fetched script (owner dir) dir x w' :=
  .bind latestSequence_moves fun _ _ h₁ _ => fetchMore_moves (h₁.honest hw)

end Fetching

/-! ### Runs -/

/-- What is applied is what the source publishes. -/
def Exact (script : ℕ → Happening β) (source : Text) (a : Applied β) : Prop :=
  Published script source (.osc a.seq a.content) ∧ Timed script source a.seq a.timestamp

/-- A root has been brought from its first sequence to the one its manifest says, without a gap and
without applying a sequence twice. -/
structure Followed (script : ℕ → Happening β) (source : Text) (first : ℕ) (root : Root β) :
    Prop where
  seqs : root.applied.map Applied.seq = List.range' (first + 1) root.applied.length
  sequence : root.replicationSequence.getD 0 = first + root.applied.length
  applied : ∀ a ∈ root.applied, Exact script source a
  source : ∀ s ∈ root.replicationSource, rstrip s = source

/-- The options name no other source than that of the root, and its directory. -/
def Minds (owner home : Text → Text) (opts : UpdateOptions) : Prop :=
  owner opts.tmpdir = home opts.root ∧ ∀ s ∈ opts.source, s ≠ [] → rstrip s = home opts.root

structure Inv (script : ℕ → Happening β) (owner home : Text → Text) (first : Text → ℕ)
    (w : World β) : Prop where
  honest : Honest script owner w
  roots : ∀ name, Followed script (home name) (first name) (w.roots name)

section Runs

variable {script : ℕ → Happening β} {owner home : Text → Text} {first : Text → ℕ} {w w' : World β}
  {opts : UpdateOptions}

def Stays (script : ℕ → Happening β) (owner home : Text → Text) (first : Text → ℕ)
    (w w' : World β) : Prop :=
  Inv script owner home first w → Inv script owner home first w'

instance : Std.Refl (Stays script owner home first) := ⟨fun _ => id⟩

instance : IsTrans (World β) (Stays script owner home first) := ⟨fun _ _ _ h h' => h' ∘ h⟩

lemma Inv.later (h : Inv script owner home first w) (hl : Later script owner w w') :
    Inv script owner home first w' := ⟨hl.honest h.honest, fun name => hl.roots ▸ h.roots name⟩

lemma readOsc_moves {dir : Text} {x : FetchResult} (hw : Honest script owner w)
    (hx : Fetched script (owner dir) dir x w) :
    Moves (Later script owner) True (readOsc dir x) w fun a _ =>
      a.seq = x.seq ∧ Exact script (owner dir) a := by
  refine .bind (P := fun a _ => a = w) (.read rfl) fun a w₁ _ ha => ?_
  subst ha
  obtain ⟨content, hcontent⟩ := Option.isSome_iff_exists.mp hx.1
  rw [hcontent]
  exact .pure ⟨rfl, hw.oscs _ _ _ hcontent, hx.2⟩

/-- The diffs of a batch are those that have been fetched. -/
lemma batch_of_fetched {P : Applied β → Prop} {fetched : List FetchResult}
    {batch : List (Applied β)} (h : List.Forall₂ (fun x a => a.seq = x.seq ∧ P a) fetched batch) :
    batch.map Applied.seq = fetched.map FetchResult.seq ∧ ∀ a ∈ batch, P a := by
  induction h with
  | nil => exact ⟨rfl, fun _ ha => absurd ha List.not_mem_nil⟩
  | cons hx _ ih =>
    refine ⟨?_, List.forall_mem_cons.mpr ⟨hx.2, ih.2⟩⟩
    rw [List.map_cons, List.map_cons, hx.1, ih.1]

lemma Inv.apply {name source : Text} {batch : List (Applied β)} {last : ℕ}
    (h : Inv script owner home first w) (hsource : rstrip source = home name)
    (hseqs : batch.map Applied.seq = List.range'
      ((w.roots name).replicationSequence.getD 0 + 1) batch.length)
    (hbatch : ∀ a ∈ batch, Exact script (home name) a)
    (hlast : (batch.map Applied.seq).getLast? = some last) :
    Inv script owner home first (w.apply name source last batch) := by
  refine ⟨⟨h.honest.scripted, h.honest.sourced, h.honest.states, h.honest.oscs⟩, fun name' => ?_⟩
  by_cases hname : name' = name
  · subst hname
    have hroot : (w.apply name' source last batch).roots name' =
        ⟨some last, some source, (w.roots name').applied ++ batch⟩ := Function.update_self _ _ _
    rw [hroot]
    obtain ⟨hseqs', hsequence, happlied, -⟩ := h.roots name'
    rw [hsequence] at hseqs
    rw [hseqs, List.getLast?_range'] at hlast
    split_ifs at hlast with hempty
    rw [Option.some.injEq] at hlast
    refine ⟨?_, ?_, fun a ha => (List.mem_append.mp ha).elim (happlied a) (hbatch a),
      fun s hs => ?_⟩
    · rw [List.map_append, hseqs', hseqs, List.length_append, Nat.add_right_comm (first name'),
        List.range'_append_1]
    · rw [Option.getD_some, List.length_append]
      omega
    · exact Option.mem_some_iff.mp hs ▸ hsource
  · have hroot : (w.apply name source last batch).roots name' = w.roots name' :=
      Function.update_of_ne hname _ _
    exact hroot ▸ h.roots name'

lemma chosenSource_minds {root : Root β} {source : Text} (hopts : Minds owner home opts)
    (hroot : ∀ s ∈ root.replicationSource, rstrip s = home opts.root)
    (h : (chosenSource opts root).filter (fun source => !source.isEmpty) = some source) :
    rstrip source = home opts.root := by
  have hsource := (Option.filter_eq_some_iff.mp h).1
  rcases Option.or_eq_some_iff.mp hsource with hnamed | ⟨-, hrecorded⟩
  · obtain ⟨hnamed, hne⟩ := Option.filter_eq_some_iff.mp hnamed
    exact hopts.2 source hnamed (by simpa using hne)
  · exact hroot source hrecorded

/-- A run leaves what has been applied to every root without gaps, however it ends. -/
lemma runOnce_moves (h : Inv script owner home first w) (hopts : Minds owner home opts) :
    Moves (Stays script owner home first) True (runOnce opts) w fun _ _ => True := by
  have hnothing : ∀ w w' : World β, Later script owner w w' → Stays script owner home first w w' :=
    fun _ _ hl hi => hi.later hl
  have hidle : ∀ w : World β, Moves (Later script owner) True (operation id) w fun _ _ =>
      True := fun w =>
    operation_moves fun w' _ => ⟨refl_of _ w', trivial⟩
  refine .bind ((hidle w).within (hnothing w)) fun _ w₁ h₁ _ => ?_
  refine .bind (P := fun a w' => a = w₁ ∧ w' = w₁) (.read ⟨rfl, rfl⟩) fun a w' _ ha => ?_
  obtain ⟨rfl, rfl⟩ := ha
  have hi₁ := h₁ h
  dsimp only
  cases hchosen : (chosenSource opts (w'.roots opts.root)).filter fun source => !source.isEmpty with
  | none => exact .throw trivial
  | some source =>
    have hsource := chosenSource_minds hopts (hi₁.roots opts.root).source hchosen
    dsimp only
    rw [hsource, ← hopts.1]
    refine .bind ((fetchRange_moves hi₁.honest).within (hnothing w')) fun fetched w₂ h₂ hfetched =>
      ?_
    obtain ⟨hlater₂, hseqs, hall⟩ := hfetched
    cases hlast : fetched.getLast? with
    | none => exact .pure trivial
    | some last =>
      dsimp only
      have hread : ∀ x ∈ fetched, ∀ w'', Later script owner w₂ w'' →
          Moves (Later script owner) True (readOsc opts.tmpdir x) w'' fun a _ =>
            a.seq = x.seq ∧ Exact script (owner opts.tmpdir) a := fun x hx w'' hl =>
        readOsc_moves (hl.honest (h₂ hi₁).honest) ⟨hl.kept _ _ (hall x hx).1, (hall x hx).2⟩
      refine .bind ((Moves.mapM hread).within (hnothing w₂)) fun batch w₃ h₃ hbatch => ?_
      obtain ⟨hlater₃, hbatch⟩ := hbatch
      obtain ⟨hsame, hexact⟩ := batch_of_fetched hbatch
      refine .bind ((hidle w₃).within (hnothing w₃)) fun _ w₄ h₄ hidle₄ => ?_
      refine .bind (P := fun _ _ => True) ?_ fun _ w₅ _ _ => ?_
      · refine .bind ((attempt_moves).within (hnothing w₄)) fun verdict w₅ h₅ hlater₅ => ?_
        cases verdict
        case answers =>
          refine .update (fun hi₅ => ?_) trivial
          have hroots : w₅.roots = w'.roots :=
            hlater₅.1.roots.trans (hidle₄.1.roots.trans (hlater₃.roots.trans hlater₂.roots))
          refine hi₅.apply hsource ?_ (hopts.1 ▸ hexact) ?_
          · rw [hsame, hroots, hseqs, ← List.length_map (f := FetchResult.seq), ← hsame,
              List.length_map]
          · rw [hsame, List.getLast?_map, hlast]
            rfl
        all_goals exact .throw trivial
      · exact .bind ((hidle w₅).within (hnothing w₅)) fun _ _ _ _ => .pure trivial

lemma inv_after (h : Inv script owner home first w) (hopts : Minds owner home opts) :
    Inv script owner home first (after w opts) := by
  rw [after]
  rcases runOnce_moves h hopts with ⟨run, hstays, -⟩ | ⟨run, -, hstays⟩ <;> rw [run] <;>
    exact hstays h

/-- Before anything is published or fetched. -/
def before (script : ℕ → Happening β) (sequences : Text → Option ℕ) (origins : Text → Option Text) :
    World β where
  roots name := { replicationSequence := sequences name, replicationSource := origins name }
  script := script

lemma inv_before {sequences : Text → Option ℕ} {origins : Text → Option Text}
    (horigins : ∀ name, ∀ s ∈ origins name, rstrip s = home name) :
    Inv script owner home (fun name => (sequences name).getD 0)
      (before script sequences origins) where
  honest := ⟨rfl, ⟨nofun, nofun⟩, nofun, nofun⟩
  roots name := ⟨rfl, rfl, nofun, horigins name⟩

/-- **Every sequence is applied once, in order.** Whatever is published, whatever fails and wherever
the process is killed: if every root has one source, and no directory is used for two sources, the
sequences applied to a root are those after its first one, without a gap, up to the one that its
manifest says. The diffs are those its source publishes under their numbers; and the timestamps too,
if no file is cut. -/
theorem applied_once {sequences : Text → Option ℕ} {origins : Text → Option Text}
    {runs : List UpdateOptions} (horigins : ∀ name, ∀ s ∈ origins name, rstrip s = home name)
    (hruns : ∀ opts ∈ runs, Minds owner home opts)
    (name : Text) {root : Root β}
    (hroot : (runs.foldl after (before script sequences origins)).roots name = root) :
    root.applied.map Applied.seq = List.range' ((sequences name).getD 0 + 1) root.applied.length ∧
      root.replicationSequence.getD 0 = (sequences name).getD 0 + root.applied.length ∧
      ∀ a ∈ root.applied, Published script (home name) (.osc a.seq a.content) ∧
        (Whole script → ∃ text n, Published script (home name) (.state a.seq text) ∧
          parseStateText text = some (n, a.timestamp)) := by
  have hinv : ∀ (runs : List UpdateOptions) (w : World β), (∀ opts ∈ runs, Minds owner home opts) →
      Inv script owner home (fun name => (sequences name).getD 0) w →
        Inv script owner home (fun name => (sequences name).getD 0) (runs.foldl after w) := by
    intro runs
    induction runs with
    | nil => exact fun _ _ h => h
    | cons opts runs ih =>
      exact fun w hruns h => ih _ (fun o ho => hruns o (by simp [ho]))
        (inv_after h (hruns opts (by simp)))
  obtain ⟨hseqs, hsequence, happlied, -⟩ := hroot ▸
    (hinv runs _ hruns (inv_before horigins)).roots name
  refine ⟨hseqs, hsequence, fun a ha => ⟨(happlied a ha).1, fun hwhole => ?_⟩⟩
  obtain ⟨text, full, n, hpart, hpublished, hparse⟩ := (happlied a ha).2
  obtain rfl := hpart.2 hwhole
  exact ⟨text, n, hpublished, hparse⟩

end Runs

section Examples

def stateText (seq : ℕ) : Text :=
  "sequenceNumber=".toList ++ Nat.toDigits 10 seq ++ "\ntimestamp=2026-01-01T00\\:00\\:00Z".toList

/-- A source with two sequences. -/
def twoSequences (source : Text) (content : ℕ → ℕ) : List (Text × Publication ℕ) :=
  [(source, .head (stateText 2)), (source, .state 1 (stateText 1)), (source, .osc 1 (content 1)),
    (source, .state 2 (stateText 2)), (source, .osc 2 (content 2))]

/-- The process is killed when it has written the beginning of the second state. -/
def killedWriting (t : ℕ) : Happening ℕ :=
  { published := if t = 0 then twoSequences ['s'] id else [],
    verdict := if t = 8 then .killsWriting 10 else .answers }

def minutely : UpdateOptions := { root := ['r'], tmpdir := ['d'] }

theorem applied_once_killedWriting :
    ∃ root, ([minutely, minutely].foldl after
        (before killedWriting (fun _ => none) fun _ => some ['s'])).roots ['r'] = root ∧
      root.applied.length = 2 ∧ root.applied.map Applied.seq =
        List.range' 1 root.applied.length := by
  refine ⟨_, rfl, by decide, ?_⟩
  have hruns : ∀ opts ∈ [minutely, minutely], Minds (fun _ => ['s']) (fun _ => ['s']) opts := by
    simp [Minds, minutely]
  have horigins : ∀ _ : Text, ∀ s ∈ some ['s'], rstrip s = ['s'] := by simp [rstrip]
  exact (applied_once horigins hruns ['r'] rfl).1

/-- Two roots with a source each, and one directory: the second one gets a diff of the first one's
source. -/
example :
    let script : ℕ → Happening ℕ := fun t =>
      { published := if t = 0 then twoSequences ['s'] id ++ twoSequences ['t'] (· + 10) else [] }
    let w := [minutely, { minutely with root := ['q'], source := some ['t'] }].foldl after
      (before script (fun _ => none) fun _ => some ['s'])
    (w.roots ['q']).applied.map (fun a => (a.seq, a.content)) = [(1, 1), (2, 2)] := by decide

end Examples

end OsmParquet.Replication
